import LatexIntegrity.Proofs.Rewriting.Basic
import LatexIntegrity.Proofs.Markup.Delimiter

/-!
# Scanners on a rewritten text

What a scanner finds in a rewritten text, it finds in the text before the
rewriting as well.  Nothing is closed that was open before.
-/

namespace LatexIntegrity

theorem isCopyable_of_isLetter {b : UInt8} (hb : Ascii.isLetter b = true) :
    isCopyable b = true := by
  simp only [isCopyable, Bool.and_eq_true, bne_iff_ne, ne_eq]
  refine ⟨⟨?_, ?_⟩, ?_⟩ <;> (rintro rfl; revert hb; decide)

theorem isCopyable_of_isNameByte {b : UInt8} (hb : Environment.isNameByte b = true) :
    isCopyable b = true := by
  simp only [isCopyable, Bool.and_eq_true, bne_iff_ne, ne_eq]
  refine ⟨⟨?_, ?_⟩, ?_⟩ <;> (rintro rfl; revert hb; decide)

theorem isCopyable_of_mem_source (token : DelimiterToken)
    (hname : Environment.IsName token.name) :
    ∀ b ∈ token.side.word ++ token.arguments, isCopyable b = true := by
  intro b hb
  simp only [DelimiterToken.arguments, List.mem_append, List.mem_cons, List.not_mem_nil,
    or_false] at hb
  rcases hb with hb | rfl | hb | rfl
  · exact isCopyable_of_isLetter (DelimiterSide.isLetter_of_mem_word hb)
  · decide
  · exact isCopyable_of_isNameByte (hname.2 b hb)
  · decide

/-- A token that no rewriting brings, neither in an inert text nor across its bounds. -/
structure IsCloser (token : Text) : Prop where
  bytes : ∃ rest, token = ('\\' : UInt8) :: rest ∧ ∀ b ∈ rest, isCopyable b = true
  unlike : ∀ {suffix}, suffix.head? = some ('\\' : UInt8) → isHarmlessEscape suffix = true →
    ∀ other, ¬token <+: suffix ++ other

namespace IsCloser

theorem head? {token : Text} (h : IsCloser token) :
    token.head? = some ('\\' : UInt8) := by
  obtain ⟨rest, rfl, -⟩ := h.bytes
  rfl

theorem isHarmlessEscape_append {suffix : Text}
    (hhead : suffix.head? = some ('\\' : UInt8)) (h : isHarmlessEscape suffix = true)
    (other : Text) :
    controlWord (suffix ++ other) ≠ DelimiterSide.closing.word ∧
      ∃ b, (afterControlWord (suffix ++ other)).head? = some b ∧
        List.elem b "()[]" = false := by
  rw [isHarmlessEscape] at h
  split at h
  · cases h
  · next b hb =>
      have hne : afterControlWord suffix ≠ [] := by
        intro hnil
        rw [hnil] at hb
        cases hb
      obtain ⟨hword, hafter⟩ := controlWord_append hhead hne other
      rw [hword, hafter, List.head?_append_of_ne_nil _ hne]
      simp only [Bool.and_eq_true, Bool.not_eq_true', bne_iff_ne, ne_eq] at h
      exact ⟨h.2, b, hb, h.1.1⟩

theorem closing {name : Text} (hname : Environment.IsName name) :
    IsCloser (DelimiterToken.mk .closing name).source := by
  refine ⟨⟨_, DelimiterToken.source_eq_cons _, isCopyable_of_mem_source _ hname⟩, ?_⟩
  · rintro suffix hhead hharmless other ⟨behind, hbehind⟩
    have hword := (isHarmlessEscape_append hhead hharmless other).1
    rw [← hbehind, (DelimiterToken.controlWord_source_append _ behind).1] at hword
    exact hword rfl

theorem bracket {b : UInt8} (hb : List.elem b "()[]" = true) : IsCloser [('\\' : UInt8), b] := by
  have hall : (("()[]" : Text).all fun b => isCopyable b && !Ascii.isLetter b) = true := by decide
  obtain ⟨hcopyable, hletter⟩ : isCopyable b = true ∧ Ascii.isLetter b = false := by
    simpa using List.all_eq_true.mp hall b (List.elem_iff.mp hb)
  refine ⟨⟨[b], rfl, by simpa using hcopyable⟩, ?_⟩
  rintro suffix hhead hharmless other ⟨behind, hbehind⟩
  obtain ⟨-, first, hfirst, hnot⟩ := isHarmlessEscape_append hhead hharmless other
  have hafter : afterControlWord (('\\' : UInt8) :: ([] ++ b :: behind)) = b :: behind :=
    afterControlWord_cons_append (by simp) (by
      intro first hfirst
      cases hfirst
      exact hletter)
  rw [← hbehind] at hfirst
  rw [show [('\\' : UInt8), b] ++ behind = ('\\' : UInt8) :: ([] ++ b :: behind) from rfl,
    hafter] at hfirst
  cases hfirst
  rw [hb] at hnot
  cases hnot

end IsCloser

namespace Rewrites

variable {context : LeftContext} {source target : Text} {b : UInt8}

/-! ## Heads -/

theorem cons_target (h : Rewrites context source (b :: target))
    (hdollar : context.dollar = false) (hb : isCopyable b = true) :
    ∃ rest, source = b :: rest ∧ Rewrites (context.push b) rest target := by
  generalize htarget : b :: target = whole at h
  cases h with
  | nil => cases htarget
  | copy first hrest =>
      cases htarget
      exact ⟨_, rfl, hrest⟩
  | replace _ _ _ hinert _ =>
      obtain ⟨first, rest, rfl, hfirst⟩ := hinert.exists_cons
      cases htarget
      rw [hb] at hfirst
      cases hfirst
  | guard hcontext _ =>
      rw [hcontext] at hdollar
      cases hdollar

theorem cons_source (h : Rewrites context (b :: source) target)
    (hdollar : context.dollar = false) (hb : isOrdinary b = false) :
    ∃ rest, target = b :: rest ∧ Rewrites (context.push b) source rest := by
  generalize hsource : b :: source = whole at h
  cases h with
  | nil => cases hsource
  | copy first hrest =>
      cases hsource
      exact ⟨_, rfl, hrest⟩
  | replace _ hkey hordinary _ _ =>
      obtain ⟨first, rest, rfl⟩ := List.exists_cons_of_ne_nil hkey
      cases hsource
      rw [hordinary b List.mem_cons_self] at hb
      cases hb
  | guard hcontext _ =>
      rw [hcontext] at hdollar
      cases hdollar

theorem of_escaped (h : Rewrites context source target) (hescaped : context.escaped = true) :
    (source = [] ∧ target = []) ∨
      ∃ b rest rest', source = b :: rest ∧ target = b :: rest' ∧
        Rewrites (context.push b) rest rest' := by
  cases h with
  | nil => exact .inl ⟨rfl, rfl⟩
  | copy b hrest => exact .inr ⟨b, _, _, rfl, rfl, hrest⟩
  | replace hfree =>
      rw [hfree] at hescaped
      cases hescaped
  | guard hcontext =>
      rw [hcontext] at hescaped
      cases hescaped

theorem target_eq_nil (h : Rewrites context [] target) (hdollar : context.dollar = false) :
    target = [] := by
  generalize hsource : ([] : Text) = whole at h
  cases h with
  | nil => rfl
  | copy => cases hsource
  | replace _ hkey _ _ _ => exact absurd (List.append_eq_nil_iff.mp hsource.symm).1 hkey
  | guard hcontext _ =>
      rw [hcontext] at hdollar
      cases hdollar

theorem head?_target (h : Rewrites context source target)
    (hdollar : context.dollar = false) (hb : isCopyable b = true) :
    target.head? = some b → source.head? = some b := by
  intro hhead
  obtain ⟨rest, rfl⟩ := List.head?_eq_some_iff.mp hhead
  obtain ⟨rest', rfl, -⟩ := h.cons_target hdollar hb
  rfl

theorem head?_source (h : Rewrites context source target)
    (hdollar : context.dollar = false) (hb : isOrdinary b = false) :
    source.head? = some b → target.head? = some b := by
  intro hhead
  obtain ⟨rest, rfl⟩ := List.head?_eq_some_iff.mp hhead
  obtain ⟨rest', rfl, -⟩ := h.cons_source hdollar hb
  rfl

/-! ## Runs -/

theorem push_dollar_of_isCopyable (hb : isCopyable b = true) :
    (context.push b).dollar = false := by
  rw [LeftContext.push_dollar, beq_eq_false_iff_ne]
  rintro rfl
  revert hb
  decide

theorem append_target {bytes rest : Text} (h : Rewrites context source (bytes ++ rest))
    (hdollar : context.dollar = false) (hbytes : ∀ b ∈ bytes, isCopyable b = true) :
    ∃ behind, source = bytes ++ behind ∧ Rewrites (context.pushAll bytes) behind rest := by
  induction bytes generalizing context source with
  | nil => exact ⟨source, rfl, h⟩
  | cons b bytes ih =>
      have hb := hbytes b List.mem_cons_self
      obtain ⟨inner, rfl, hinner⟩ := h.cons_target hdollar hb
      obtain ⟨behind, rfl, hbehind⟩ := ih hinner (push_dollar_of_isCopyable hb)
        fun b hb => hbytes b (List.mem_cons_of_mem _ hb)
      exact ⟨behind, rfl, hbehind⟩

theorem prefix_target {bytes : Text} (h : Rewrites context source target)
    (hdollar : context.dollar = false) (hbytes : ∀ b ∈ bytes, isCopyable b = true)
    (hstarts : bytes <+: target) : bytes <+: source := by
  obtain ⟨rest, rfl⟩ := hstarts
  obtain ⟨behind, rfl, -⟩ := h.append_target hdollar hbytes
  exact List.prefix_append _ _

theorem takeWhile_target {p : UInt8 → Bool} (h : Rewrites context source target)
    (hdollar : context.dollar = false)
    (hp : ∀ b, p b = true → isCopyable b = true ∧ isOrdinary b = false) :
    target.takeWhile p = source.takeWhile p ∧
      Rewrites (context.pushAll (source.takeWhile p))
        (source.drop (source.takeWhile p).length)
        (target.drop (source.takeWhile p).length) ∧
      (context.pushAll (source.takeWhile p)).dollar = false := by
  induction source generalizing context target with
  | nil =>
      obtain rfl := h.target_eq_nil hdollar
      exact ⟨rfl, .nil _, hdollar⟩
  | cons b rest ih =>
      by_cases hb : p b = true
      · obtain ⟨hcopyable, hordinary⟩ := hp b hb
        obtain ⟨rest', rfl, hrest⟩ := h.cons_source hdollar hordinary
        obtain ⟨hrun, hbehind, hdollar'⟩ := ih hrest (push_dollar_of_isCopyable hcopyable)
        rw [List.takeWhile_cons_of_pos hb, List.takeWhile_cons_of_pos hb, hrun]
        exact ⟨rfl, hbehind, hdollar'⟩
      · rw [List.takeWhile_cons_of_neg hb]
        refine ⟨?_, h, hdollar⟩
        cases target with
        | nil => rfl
        | cons first rest' =>
            refine List.takeWhile_cons_of_neg ?_
            intro hfirst
            obtain ⟨behind, hsource, -⟩ := h.cons_target hdollar (hp first hfirst).1
            cases hsource
            exact hb hfirst

/-! ## Closers -/

theorem not_prefix_of_isOrdinary {token key : Text} (htoken : IsCloser token)
    (hkey : ∀ b ∈ key, isOrdinary b = true) (text : Text) :
    ∀ suffix, suffix <:+ key → suffix ≠ [] → ¬token <+: suffix ++ text := by
  intro suffix hsuffix hne hstarts
  obtain ⟨first, rest, rfl⟩ := List.exists_cons_of_ne_nil hne
  obtain ⟨tail, rfl, -⟩ := htoken.bytes
  obtain ⟨rfl, -⟩ := List.cons_prefix_cons.mp hstarts
  have hfirst := hkey _ (hsuffix.subset List.mem_cons_self)
  revert hfirst
  decide

theorem not_prefix_of_isInert {token chunk : Text} (htoken : IsCloser token)
    (hchunk : IsInert chunk) (text : Text) :
    ∀ suffix, suffix <:+ chunk → suffix ≠ [] → ¬token <+: suffix ++ text := by
  intro suffix hsuffix hne hstarts
  obtain ⟨first, rest, rfl⟩ := List.exists_cons_of_ne_nil hne
  have hfirst : (first :: rest).head? = some ('\\' : UInt8) := by
    obtain ⟨tail, rfl, -⟩ := htoken.bytes
    obtain ⟨rfl, -⟩ := List.cons_prefix_cons.mp hstarts
    rfl
  exact htoken.unlike hfirst
    (hchunk.escapes _ ((List.mem_tails _ _).mpr hsuffix) hfirst) text hstarts

theorem not_prefix_of_dollarGuard {token : Text} (htoken : IsCloser token) (text : Text) :
    ∀ suffix, suffix <:+ dollarGuard → suffix ≠ [] → ¬token <+: suffix ++ text := by
  intro suffix hsuffix hne ⟨behind, hbehind⟩
  have hmem : suffix ∈ dollarGuard.tails := (List.mem_tails _ _).mpr hsuffix
  obtain ⟨tail, rfl, -⟩ := htoken.bytes
  simp only [dollarGuard, List.tails, List.mem_cons, List.not_mem_nil, or_false] at hmem
  rcases hmem with rfl | rfl | rfl
  · cases hbehind
  · cases hbehind
  · exact hne rfl

theorem escaped_pushAll (h : Rewrites context source target) {before : LeftContext}
    (hbefore : before.escaped = context.escaped) :
    (before.pushAll source).escaped = (context.pushAll target).escaped := by
  induction h generalizing before with
  | nil => exact hbefore
  | copy b _ ih => exact ih (by simp [hbefore])
  | replace hescaped hkey hordinary hinert _ ih =>
      rw [LeftContext.pushAll_append, LeftContext.pushAll_append]
      refine ih ?_
      rw [pushAll_of_isOrdinary hkey hordinary,
        hinert.escaped_pushAll hescaped]
  | guard hcontext _ ih =>
      subst hcontext
      exact ih hbefore

theorem unescapedDistance?_eq_none {token : Text} (h : Rewrites context source target)
    (htoken : IsCloser token) {before : LeftContext}
    (hbefore : before.escaped = context.escaped)
    (hnone : unescapedDistance? token before source = none) :
    unescapedDistance? token context target = none := by
  induction h generalizing before with
  | nil => rfl
  | @copy b context source target hrest ih =>
      rw [unescapedDistance?_cons_eq_none_iff] at hnone ⊢
      refine ⟨?_, ih (by simp [hbefore]) hnone.2⟩
      rintro ⟨hescaped, hstarts⟩
      refine hnone.1 ⟨hbefore.trans hescaped, ?_⟩
      obtain ⟨tail, rfl, htail⟩ := htoken.bytes
      obtain ⟨rfl, hbehind⟩ := List.cons_prefix_cons.mp hstarts
      exact List.cons_prefix_cons.mpr ⟨rfl, hrest.prefix_target rfl htail hbehind⟩
  | @replace context key chunk source target hescaped hkey hordinary hinert hrest ih =>
      rw [unescapedDistance?_skip (not_prefix_of_isOrdinary htoken hordinary _)] at hnone
      rw [unescapedDistance?_skip (not_prefix_of_isInert htoken hinert _), Option.map_eq_none_iff]
      refine ih ?_ (Option.map_eq_none_iff.mp hnone)
      rw [pushAll_of_isOrdinary hkey hordinary,
        hinert.escaped_pushAll hescaped]
  | guard hcontext hrest ih =>
      subst hcontext
      rw [unescapedDistance?_skip (not_prefix_of_dollarGuard htoken _), Option.map_eq_none_iff]
      exact ih hbefore hnone

theorem unescapedDistance?_append {token : Text} (h : Rewrites context source target)
    (htoken : IsCloser token) {before : LeftContext}
    (hbefore : before.escaped = context.escaped) {rest : Text}
    (hsource : unescapedDistance? token before (source ++ (token ++ rest)) =
      some source.length) (rest' : Text) :
    unescapedDistance? token context (target ++ (token ++ rest')) = some target.length := by
  have hne : token ≠ [] := by
    obtain ⟨tail, rfl, -⟩ := htoken.bytes
    simp
  rw [unescapedDistance?_append_iff hne] at hsource ⊢
  obtain ⟨hescaped, hnone⟩ := hsource
  refine ⟨?_, ?_⟩
  · rw [← h.escaped_pushAll hbefore]
    exact hescaped
  · exact (h.append (.refl _ _)).unescapedDistance?_eq_none htoken hbefore hnone

end Rewrites

end LatexIntegrity
