import Mathlib.Data.List.Infix
import LatexIntegrity.Proofs.Markup.Delimiter

/-!
# All delimiters of a text

The delimiters of a text that is put together from two pieces are those of the pieces,
unless a delimiter begins in one of them and ends in the other.
-/

namespace LatexIntegrity

def headToken? (context : LeftContext) (text : Text) : Option DelimiterToken :=
  if context.escaped then none else DelimiterToken.read? text

/-- The delimiters of a text, whatever regions they stand in. -/
def tokensFrom : LeftContext → Text → List DelimiterToken
  | _, [] => []
  | context, b :: rest =>
      (headToken? context (b :: rest)).toList ++ tokensFrom (context.push b) rest

theorem headToken?_eq_some_iff {context : LeftContext} {text : Text} {token : DelimiterToken} :
    headToken? context text = some token ↔
      context.escaped = false ∧ Environment.IsName token.name ∧ token.source <+: text := by
  unfold headToken?
  cases context.escaped <;> simp [DelimiterToken.read?_eq_some_iff]

theorem tokensFrom_context {context other : LeftContext} (text : Text)
    (h : other.escaped = context.escaped) : tokensFrom other text = tokensFrom context text := by
  cases text with
  | nil => rfl
  | cons b rest =>
      have hpush : other.push b = context.push b := by
        rw [LeftContext.push, LeftContext.push, h]
      unfold tokensFrom headToken?
      rw [h, hpush]

theorem tokensFrom_eq_nil {text : Text} (h : ('\\' : UInt8) ∉ text) (context : LeftContext) :
    tokensFrom context text = [] := by
  induction text generalizing context with
  | nil => rfl
  | cons b rest ih =>
      have hnone : headToken? context (b :: rest) = none := by
        apply Option.eq_none_iff_forall_ne_some.mpr
        intro token htoken
        obtain ⟨-, -, behind, hbehind⟩ := headToken?_eq_some_iff.mp htoken
        rw [DelimiterToken.source_eq, List.cons_append] at hbehind
        apply h
        simp [(List.cons.inj hbehind).1]
      rw [tokensFrom, hnone, ih fun hmem => h (List.mem_cons_of_mem _ hmem)]
      rfl

theorem tokensFrom_source {token : DelimiterToken} (hname : Environment.IsName token.name)
    {context : LeftContext} (hescaped : context.escaped = false) :
    tokensFrom context token.source = [token] := by
  have hhead := headToken?_eq_some_iff.mpr ⟨hescaped, hname, List.prefix_rfl⟩
  have htail := DelimiterToken.not_mem_tail_source hname (b := '\\') (by decide)
  obtain ⟨rest, hrest⟩ : ∃ rest, token.source = ('\\' : UInt8) :: rest := by
    simp [DelimiterToken.source_eq]
  rw [hrest, List.tail_cons] at htail
  rw [hrest] at hhead ⊢
  rw [tokensFrom, hhead, tokensFrom_eq_nil htail]
  rfl

/-! ## Cuts between delimiters -/

/-- No delimiter begins in the first text and ends in the second. -/
def IsSevered (before after : Text) : Prop :=
  ∀ token : DelimiterToken, Environment.IsName token.name →
    ∀ part rest, part ++ rest = token.source → part ≠ [] → rest ≠ [] →
      part <:+ before → ¬rest <+: after

namespace IsSevered

variable {before after : Text}

theorem suffix (first : Text) (h : IsSevered (first ++ before) after) : IsSevered before after :=
  fun token hname part rest hsource hpart hrest hsuffix =>
    h token hname part rest hsource hpart hrest (hsuffix.trans (List.suffix_append _ _))

theorem prefix_of_prefix_append {token : DelimiterToken} {suffix : Text}
    (h : IsSevered before after) (hname : Environment.IsName token.name)
    (hsuffix : suffix <:+ before) (hne : suffix ≠ []) (hstarts : token.source <+: suffix ++ after) :
    token.source <+: suffix := by
  obtain ⟨behind, hbehind⟩ := hstarts
  rcases List.append_eq_append_iff.mp hbehind with ⟨inside, rfl, -⟩ | ⟨rest, hsource, rfl⟩
  · exact List.prefix_append _ _
  · by_cases hrest : rest = []
    · simp [hsource, hrest]
    · exact absurd (List.prefix_append _ _)
        (h token hname suffix rest hsource.symm hne hrest hsuffix)

theorem of_nil : IsSevered [] after := by
  intro _ _ part _ _ hpart _ hsuffix
  exact absurd (List.suffix_nil.mp hsuffix) hpart

theorem of_head (h : ∀ b, after.head? = some b → DelimiterToken.isInnerByte b = false) :
    IsSevered before after := by
  intro token hname part rest hsource hpart hrest _ hstarts
  obtain ⟨b, tail, rfl⟩ := List.exists_cons_of_ne_nil hrest
  obtain ⟨c, others, rfl⟩ := List.exists_cons_of_ne_nil hpart
  obtain ⟨behind, rfl⟩ := hstarts
  apply DelimiterToken.not_mem_tail_source hname (h b rfl)
  simp [← hsource]

theorem of_getLast (h : ∀ b, before.getLast? = some b → b = ('}' : UInt8) ∨
    b ≠ '\\' ∧ DelimiterToken.isInnerByte b = false) : IsSevered before after := by
  intro token hname part rest hsource hpart hrest hsuffix _
  have hlast := hsuffix.getLast hpart
  have hmem := (DelimiterToken.prefix_head_append_name hsource hrest).subset
    (List.getLast_mem hpart)
  have hbefore := h (part.getLast hpart) (by rw [hlast]; exact List.getLast?_eq_some_getLast _)
  rcases DelimiterToken.eq_backslash_or_isInnerByte hname hmem with hb | ⟨hinner, hclose⟩
  · rw [hb] at hbefore
    revert hbefore
    decide
  · simp [hinner, hclose] at hbefore

theorem of_not_mem (h : ('\\' : UInt8) ∉ before) : IsSevered before after := by
  intro token hname part rest hsource hpart _ hsuffix _
  obtain ⟨b, others, rfl⟩ := List.exists_cons_of_ne_nil hpart
  rw [DelimiterToken.source_eq, List.cons_append] at hsource
  apply h
  rw [← (List.cons.inj hsource).1]
  exact hsuffix.subset List.mem_cons_self

end IsSevered

theorem headToken?_append {before after : Text} (h : IsSevered before after) (hne : before ≠ [])
    (context : LeftContext) :
    headToken? context (before ++ after) = headToken? context before := by
  apply Option.ext
  intro token
  simp only [headToken?_eq_some_iff]
  apply and_congr_right
  intro _
  apply and_congr_right
  intro hname
  exact ⟨h.prefix_of_prefix_append hname List.suffix_rfl hne,
    fun hstarts => hstarts.trans (List.prefix_append _ _)⟩

theorem tokensFrom_append {before after : Text} (h : IsSevered before after)
    (context : LeftContext) :
    tokensFrom context (before ++ after) =
      tokensFrom context before ++ tokensFrom (context.pushAll before) after := by
  induction before generalizing context with
  | nil => rfl
  | cons b rest ih =>
      have hhead := headToken?_append h (List.cons_ne_nil b rest) context
      rw [List.cons_append] at hhead ⊢
      rw [tokensFrom, tokensFrom, hhead, @ih (h.suffix [b]), List.append_assoc]
      rfl

theorem tokensFrom_after_append {first gap rest : Text} (h : IsSevered (first ++ gap) rest) :
    tokensFrom (.after first) (gap ++ rest) =
      tokensFrom (.after first) gap ++ tokensFrom (.after (first ++ gap)) rest := by
  rw [tokensFrom_append (h.suffix first), LeftContext.after_append]

/-! ## Unfinished delimiters -/

def isUnfinishedDelimiter (text : Text) : Bool :=
  [DelimiterSide.opening, .closing].any fun side =>
    let head := (DelimiterToken.mk side []).head
    !text.isEmpty && (text.isPrefixOf head ||
      head.isPrefixOf text && (text.drop head.length).all Environment.isNameByte)

def endsInDelimiter (text : Text) : Bool := text.tails.any isUnfinishedDelimiter

theorem isUnfinishedDelimiter_of_append {token : DelimiterToken}
    (hname : Environment.IsName token.name) {part rest : Text} (h : part ++ rest = token.source)
    (hpart : part ≠ []) (hrest : rest ≠ []) : isUnfinishedDelimiter part = true := by
  have hhead : (DelimiterToken.mk token.side []).head = token.head := rfl
  simp only [isUnfinishedDelimiter, List.any_eq_true]
  refine ⟨token.side, by cases token.side <;> simp, ?_⟩
  simp only [hhead, Bool.and_eq_true, Bool.or_eq_true, List.isPrefixOf_iff_prefix]
  refine ⟨by simpa using hpart, ?_⟩
  obtain ⟨missing, hmissing⟩ := DelimiterToken.prefix_head_append_name h hrest
  rcases List.append_eq_append_iff.mp hmissing with ⟨more, hmore, -⟩ | ⟨name, rfl, hmore⟩
  · left
    rw [hmore]
    exact List.prefix_append _ _
  · right
    refine ⟨List.prefix_append _ _, ?_⟩
    rw [List.drop_left, List.all_eq_true]
    exact fun b hb => hname.2 b (by simp [hmore, hb])

theorem IsSevered.of_endsInDelimiter {before after : Text} (h : endsInDelimiter before = false) :
    IsSevered before after := by
  intro token hname part rest hsource hpart hrest hsuffix _
  have hunfinished := isUnfinishedDelimiter_of_append hname hsource hpart hrest
  have hnone := List.any_eq_false.mp h part ((List.mem_tails _ _).mpr hsuffix)
  exact hnone hunfinished

end LatexIntegrity
