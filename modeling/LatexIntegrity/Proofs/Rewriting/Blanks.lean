import LatexIntegrity.Proofs.Markup.Groups
import LatexIntegrity.Proofs.Region.Ends
import LatexIntegrity.Proofs.Rewriting.Constructs

/-!
# Commands and definitions of a text with blanks

A command or a definition whose bytes have been blanked in places was there before, unless a
blank stands where a brace or a closing bracket stood: arguments end at nothing else.
-/

namespace LatexIntegrity

def isGroupByte (b : UInt8) : Bool := b == '{' || b == '}' || b == ']'

theorem ne_of_isGroupByte {b other : UInt8} (hb : isGroupByte b = false)
    (hother : isGroupByte other = true) : b ≠ other := by
  rintro rfl
  rw [hb] at hother
  cases hother

/--
`IsBlanked length text copy`: up to `length` bytes, the second text is the first one with
spaces in place of bytes that are neither braces nor closing brackets.  A backslash stands
together with the byte behind it, which need not be blanked with it.
-/
inductive IsBlanked : Nat → Text → Text → Prop
  | rest (text copy : Text) : IsBlanked 0 text copy
  | byte {b : UInt8} {length : Nat} {text copy : Text} : b ≠ '\\' → IsBlanked length text copy →
      IsBlanked (length + 1) (b :: text) (b :: copy)
  | literal (b : UInt8) {length : Nat} {text copy : Text} : IsBlanked length text copy →
      IsBlanked (length + 2) (('\\' : UInt8) :: b :: text) (('\\' : UInt8) :: b :: copy)
  | blank {b : UInt8} {length : Nat} {text copy : Text} : b ≠ '\\' → isGroupByte b = false →
      IsBlanked length text copy → IsBlanked (length + 1) (b :: text) ((' ' : UInt8) :: copy)
  | blankLiteral {b c : UInt8} {length : Nat} {text copy : Text} : isGroupByte b = false →
      c ≠ '\\' → isGroupByte c = false → IsBlanked length text copy →
        IsBlanked (length + 2) (('\\' : UInt8) :: b :: text) ((' ' : UInt8) :: c :: copy)

/-- What a scanner finds in the copy it finds in the text, and behind it the copy goes on. -/
def KeepsBlanksAt (scan : Text → Option Nat) (length : Nat) (text copy : Text) : Prop :=
  ∀ found, scan copy = some found → found ≤ length →
    scan text = some found ∧ IsBlanked (length - found) (text.drop found) (copy.drop found)

def KeepsBlanks (scan : Text → Option Nat) : Prop :=
  ∀ ⦃length : Nat⦄ ⦃text copy : Text⦄, IsBlanked length text copy →
    KeepsBlanksAt scan length text copy

variable {length : Nat} {text copy : Text}

namespace IsBlanked

theorem head? (h : IsBlanked length text copy) (hpos : 0 < length) {b : UInt8}
    (hb : copy.head? = some b) (hspace : b ≠ ' ') : text.head? = some b := by
  cases h with
  | rest => omega
  | byte _ _ => exact hb
  | literal _ _ => exact hb
  | blank _ _ _ => exact absurd (Option.some.inj hb).symm hspace
  | blankLiteral _ _ _ _ => exact absurd (Option.some.inj hb).symm hspace

theorem tail {b : UInt8} (h : IsBlanked length text (b :: copy)) (hpos : 0 < length)
    (hbackslash : b ≠ '\\') (hspace : b ≠ ' ') :
    ∃ shorter rest, length = shorter + 1 ∧ text = b :: rest ∧ IsBlanked shorter rest copy := by
  cases h with
  | rest => omega
  | byte _ h => exact ⟨_, _, rfl, rfl, h⟩
  | literal _ _ => exact absurd rfl hbackslash
  | blank _ _ _ => exact absurd rfl hspace
  | blankLiteral _ _ _ _ => exact absurd rfl hspace

theorem behind_literal {b c : UInt8} (h : IsBlanked length text (c :: b :: copy))
    (hpos : 0 < length) (hc : c = '\\') :
    ∃ shorter rest, length = shorter + 2 ∧ text = ('\\' : UInt8) :: b :: rest ∧
      IsBlanked shorter rest copy := by
  cases h with
  | rest => omega
  | byte hbackslash _ => exact absurd hc hbackslash
  | literal _ h => exact ⟨_, _, rfl, rfl, h⟩
  | blank _ _ _ => exact absurd hc (by decide)
  | blankLiteral _ _ _ _ => exact absurd hc (by decide)

end IsBlanked

namespace KeepsBlanksAt

variable {scan : Text → Option Nat}

theorem succ (h : KeepsBlanksAt scan length text copy) (b c : UInt8) {found : Nat}
    (hfound : (scan copy).map (· + 1) = some found) (hfit : found ≤ length + 1) :
    (scan text).map (· + 1) = some found ∧
      IsBlanked (length + 1 - found) ((b :: text).drop found) ((c :: copy).drop found) := by
  obtain ⟨shorter, hshorter, rfl⟩ := Option.map_eq_some_iff.mp hfound
  obtain ⟨hscan, hbehind⟩ := h shorter hshorter (by omega)
  refine ⟨by rw [hscan]; rfl, ?_⟩
  rwa [Nat.add_sub_add_right]

theorem succ_succ (h : KeepsBlanksAt scan length text copy) (b b' c c' : UInt8) {found : Nat}
    (hfound : (scan copy).map (· + 2) = some found) (hfit : found ≤ length + 2) :
    (scan text).map (· + 2) = some found ∧
      IsBlanked (length + 2 - found) ((b :: b' :: text).drop found)
        ((c :: c' :: copy).drop found) := by
  obtain ⟨shorter, hshorter, rfl⟩ := Option.map_eq_some_iff.mp hfound
  obtain ⟨hscan, hbehind⟩ := h shorter hshorter (by omega)
  refine ⟨by rw [hscan]; rfl, ?_⟩
  rwa [Nat.add_sub_add_right]

end KeepsBlanksAt

theorem KeepsBlanks.seq {first second : Text → Option Nat} (hfirst : KeepsBlanks first)
    (hsecond : KeepsBlanks second) :
    KeepsBlanks fun text => do
      let before ← first text
      let behind ← second (text.drop before)
      return before + behind := by
  intro length text copy h found hfound hfit
  obtain ⟨before, hbefore, hfound⟩ := Option.bind_eq_some_iff.mp hfound
  obtain ⟨behind, hbehind, hfound⟩ := Option.bind_eq_some_iff.mp hfound
  cases hfound
  obtain ⟨hbefore', hrest⟩ := hfirst h before hbefore (by omega)
  obtain ⟨hbehind', hrest⟩ := hsecond hrest behind hbehind (by omega)
  rw [List.drop_drop, List.drop_drop, Nat.sub_sub] at hrest
  exact ⟨by simp [hbefore', hbehind'], hrest⟩

/-! ## Groups -/

namespace Group

theorem closing?_keepsBlanks (limit depth : Nat) : KeepsBlanks (closing? limit depth) := by
  intro length text copy h
  induction h generalizing depth with
  | rest text copy =>
      intro found hfound hfit
      obtain ⟨inner, hinner⟩ := closing?_take_eq hfound
      rw [Nat.le_zero.mp hfit, List.take_zero] at hinner
      exact absurd hinner.symm (by simp)
  | @byte b length text copy hb hrest ih =>
      intro found hfound hfit
      rw [closing?_cons hb] at hfound ⊢
      cases hstep : braceStep limit depth b with
      | exceeds =>
          rw [hstep] at hfound
          cases hfound
      | closes =>
          rw [hstep] at hfound
          cases hfound
          exact ⟨rfl, hrest⟩
      | goesOn inner =>
          rw [hstep] at hfound
          exact (ih inner).succ b b hfound hfit
  | literal b _ ih =>
      intro found hfound hfit
      rw [closing?_literal] at hfound ⊢
      exact (ih depth).succ_succ _ b _ b hfound hfit
  | @blank b length text copy hb hgroup _ ih =>
      intro found hfound hfit
      rw [closing?_byte (by decide) (by decide) (by decide)] at hfound
      rw [closing?_byte hb (ne_of_isGroupByte hgroup (by decide))
        (ne_of_isGroupByte hgroup (by decide))]
      exact (ih depth).succ b _ hfound hfit
  | @blankLiteral b c length text copy _ hbackslash hgroup _ ih =>
      intro found hfound hfit
      rw [closing?_byte (by decide) (by decide) (by decide),
        closing?_byte hbackslash (ne_of_isGroupByte hgroup (by decide))
          (ne_of_isGroupByte hgroup (by decide)), map_add_map_add] at hfound
      rw [closing?_literal]
      exact (ih depth).succ_succ _ b _ c hfound hfit

def through? (p : UInt8 → Bool) (text : Text) : Option Nat := (text.findIdx? p).map (· + 1)

theorem through?_cons (p : UInt8 → Bool) (b : UInt8) (rest : Text) :
    through? p (b :: rest) = if p b then some 1 else (through? p rest).map (· + 1) := by
  rw [through?, List.findIdx?_cons]
  split
  · rfl
  · rfl

theorem through?_eq_some_iff {b : UInt8} {text : Text} {run : Nat} :
    through? (· == b) text = some (run + 1) ↔
      (text.takeWhile (· != b)).length = run ∧ (text.drop run).head? = some b := by
  induction text generalizing run with
  | nil => simp [through?]
  | cons first rest ih =>
      rw [through?_cons, List.takeWhile_cons]
      by_cases hb : first = b
      · cases run <;> simp [hb]
      · cases run with
        | zero => simp [hb, through?]
        | succ run => simpa [hb] using ih

theorem through?_keepsBlanks {p : UInt8 → Bool} (hp : ∀ b, isGroupByte b = false → p b = false) :
    KeepsBlanks (through? p) := by
  have hbackslash : p '\\' = false := hp _ (by decide)
  have hspace : p ' ' = false := hp _ (by decide)
  intro length text copy h
  induction h with
  | rest text copy =>
      intro found hfound hfit
      obtain ⟨index, -, rfl⟩ := Option.map_eq_some_iff.mp hfound
      omega
  | @byte b length text copy hb hrest ih =>
      intro found hfound hfit
      rw [through?_cons] at hfound ⊢
      split at hfound
      · next hhere =>
          cases hfound
          exact ⟨if_pos hhere, hrest⟩
      · next hhere =>
          rw [if_neg hhere]
          exact ih.succ b b hfound hfit
  | @literal b length text copy hrest ih =>
      intro found hfound hfit
      rw [through?_cons, hbackslash, if_neg Bool.false_ne_true, through?_cons] at hfound ⊢
      split at hfound
      · next hhere =>
          cases hfound
          rw [if_pos hhere]
          exact ⟨rfl, hrest⟩
      · next hhere =>
          rw [if_neg hhere, map_add_map_add]
          rw [map_add_map_add] at hfound
          exact ih.succ_succ _ b _ b hfound hfit
  | @blank b length text copy _ hgroup _ ih =>
      intro found hfound hfit
      rw [through?_cons, hspace, if_neg Bool.false_ne_true] at hfound
      rw [through?_cons, hp b hgroup, if_neg Bool.false_ne_true]
      exact ih.succ b _ hfound hfit
  -- In place of a backslash and the byte behind it the copy has two blanks.
  | @blankLiteral b c length text copy hgroup _ hgroup' _ ih =>
      intro found hfound hfit
      rw [through?_cons, hspace, if_neg Bool.false_ne_true, through?_cons, hp c hgroup',
        if_neg Bool.false_ne_true, map_add_map_add] at hfound
      rw [through?_cons, hbackslash, if_neg Bool.false_ne_true, through?_cons, hp b hgroup,
        if_neg Bool.false_ne_true, map_add_map_add]
      exact ih.succ_succ _ b _ c hfound hfit

theorem flat?_cons (opener closer : UInt8) (rest : Text) :
    flat? opener closer (opener :: rest) = (through? (· == closer) rest).map (· + 1) := by
  rw [flat?, beq_self_eq_true, if_pos rfl, through?, Option.map_map]
  rfl

theorem keepsBlanks_of_head {scan inner : Text → Option Nat} {opener : UInt8}
    (hbackslash : opener ≠ '\\') (hspace : opener ≠ ' ')
    (hhead : ∀ {text found}, scan text = some found → 0 < found ∧ text.head? = some opener)
    (hscan : ∀ rest, scan (opener :: rest) = (inner rest).map (· + 1)) (h : KeepsBlanks inner) :
    KeepsBlanks scan := by
  intro length text copy hblanked found hfound hfit
  obtain ⟨hpos, hopener⟩ := hhead hfound
  obtain ⟨rest, rfl⟩ := List.head?_eq_some_iff.mp hopener
  obtain ⟨shorter, rest', rfl, rfl, hrest⟩ :=
    hblanked.tail (by omega) hbackslash hspace
  rw [hscan] at hfound ⊢
  exact (h hrest).succ opener opener hfound hfit

theorem flat?_keepsBlanks {opener closer : UInt8} (hbackslash : opener ≠ '\\')
    (hspace : opener ≠ ' ') (hcloser : isGroupByte closer = true) :
    KeepsBlanks (flat? opener closer) :=
  keepsBlanks_of_head hbackslash hspace
    (fun hfound => ⟨flat?_pos hfound, head?_of_flat?_eq_some hfound⟩)
    (flat?_cons opener closer)
    (through?_keepsBlanks fun _ hb => beq_false_of_ne (ne_of_isGroupByte hb hcloser))

theorem argument?_keepsBlanks : KeepsBlanks argument? :=
  flat?_keepsBlanks (by decide) (by decide) (by decide)

theorem optional?_keepsBlanks : KeepsBlanks optional? :=
  flat?_keepsBlanks (by decide) (by decide) (by decide)

theorem braced?_keepsBlanks (limit : Nat) : KeepsBlanks (braced? limit) :=
  keepsBlanks_of_head (by decide) (by decide)
    (fun hfound => ⟨braced?_pos hfound, head?_of_braced?_eq_some hfound⟩) (braced?_cons limit)
    (closing?_keepsBlanks limit 0)

end Group

/-! ## Arguments -/

namespace Recognizer

open LatexIntegrity.Group

theorem citationArguments?_keepsBlanks (count : Nat) : KeepsBlanks (citationArguments? count) := by
  induction count with
  | zero =>
      rw [citationArguments?_zero]
      exact argument?_keepsBlanks
  | succ count ih =>
      intro length text copy h found hfound hfit
      have hpos := citationArguments?_pos hfound
      rw [citationArguments?_succ] at hfound ⊢
      split at hfound
      · next hbracket =>
          rw [if_pos (h.head? (by omega) hbracket (by decide))]
          exact optional?_keepsBlanks.seq ih h found hfound hfit
      · have hbrace := h.head? (by omega) (head?_of_flat?_eq_some hfound) (by decide)
        rw [hbrace, if_neg (by decide)]
        exact argument?_keepsBlanks h found hfound hfit

theorem commandArguments?_keepsBlanks (word : Text) : KeepsBlanks (commandArguments? word) := by
  rw [commandArguments?_eq]
  split
  · exact argument?_keepsBlanks
  · split
    · exact citationArguments?_keepsBlanks 2
    · split
      · exact argument?_keepsBlanks.seq argument?_keepsBlanks
      · exact fun _ => nofun

theorem le_definitionArguments? (h : IsBlanked length text copy) {found : Nat}
    (hfound : definitionArguments? copy = some found) (hfit : found ≤ length) :
    ∃ longer, definitionArguments? text = some longer ∧ found ≤ longer := by
  rw [definitionArguments?_eq_some_iff] at hfound
  induction hfound generalizing length text with
  | @last copy group hgroup _ =>
      obtain ⟨hgroup', -⟩ := braced?_keepsBlanks 1 h group hgroup hfit
      rw [definitionArguments?_brace (head?_of_braced?_eq_some hgroup'), hgroup', Option.bind_some]
      split
      · exact ⟨_, rfl, Nat.le_refl _⟩
      · exact ⟨_, rfl, Nat.le_add_right _ _⟩
  | @brace copy group more hgroup _ ih =>
      obtain ⟨hgroup', hrest⟩ := braced?_keepsBlanks 1 h group hgroup (by omega)
      obtain ⟨longer, hlonger, hle⟩ := ih hrest (by omega)
      rw [definitionArguments?_eq_some_iff] at hlonger
      exact ⟨group + longer, definitionArguments?_eq_some_iff.mpr (.brace hgroup' hlonger),
        by omega⟩
  | @bracket copy group more hgroup _ ih =>
      obtain ⟨hgroup', hrest⟩ := optional?_keepsBlanks h group hgroup (by omega)
      obtain ⟨longer, hlonger, hle⟩ := ih hrest (by omega)
      rw [definitionArguments?_eq_some_iff] at hlonger
      exact ⟨group + longer, definitionArguments?_eq_some_iff.mpr (.bracket hgroup' hlonger),
        by omega⟩

/-! ## Constructs -/

variable {context : LeftContext} {construct : Construct}

theorem command_of_blanked (h : command context copy = some construct)
    (hword : controlWord text = controlWord copy)
    (hblanked : IsBlanked (construct.length - (1 + (controlWord copy).length))
      (afterControlWord text) (afterControlWord copy)) :
    command context text = some construct := by
  obtain ⟨hescaped, hne, arguments, harguments, rfl⟩ := command_eq_some_iff.mp h
  simp only [Nat.add_sub_cancel_left] at hblanked
  obtain ⟨harguments', -⟩ :=
    commandArguments?_keepsBlanks _ hblanked arguments harguments (Nat.le_refl _)
  exact command_eq_some_iff.mpr
    ⟨hescaped, by rwa [hword], arguments, by rwa [hword], by rw [hword]⟩

theorem newCommand_of_blanked (h : newCommand context copy = some construct)
    (hword : controlWord text = controlWord copy)
    (hblanked : IsBlanked (construct.length - (1 + (controlWord copy).length))
      (afterControlWord text) (afterControlWord copy)) :
    ∃ longer, newCommand context text = some longer ∧ construct.length ≤ longer.length := by
  obtain ⟨hescaped, hmem, arguments, harguments, rfl⟩ := newCommand_eq_some_iff.mp h
  have hpos := (definitionArguments?_spec harguments).1
  simp only [Nat.add_sub_cancel_left] at hblanked
  -- A star stands in both texts or in none of them.
  obtain ⟨hstar, hrest⟩ : starLength (afterControlWord text) = starLength (afterControlWord copy) ∧
      IsBlanked arguments ((afterControlWord text).drop (starLength (afterControlWord copy)))
        ((afterControlWord copy).drop (starLength (afterControlWord copy))) := by
    by_cases hhead : (afterControlWord copy).head? = some ('*' : UInt8)
    · have hone : starLength (afterControlWord copy) = 1 := if_pos hhead
      rw [hone] at hblanked ⊢
      obtain ⟨rest, hcopy⟩ := List.head?_eq_some_iff.mp hhead
      rw [hcopy] at hblanked ⊢
      obtain ⟨shorter, rest', hlength, htext, hrest⟩ :=
        hblanked.tail (by omega) (by decide) (by decide)
      obtain rfl : arguments = shorter := by omega
      rw [htext]
      exact ⟨rfl, hrest⟩
    · have hzero : starLength (afterControlWord copy) = 0 := if_neg hhead
      rw [hzero] at hblanked harguments ⊢
      rw [Nat.zero_add] at hblanked
      rw [List.drop_zero] at harguments
      refine ⟨if_neg ?_, hblanked⟩
      -- What stands there is the first argument.
      rcases head?_of_definitionArguments?_eq_some harguments with hopener | hopener
      all_goals
        rw [hblanked.head? hpos hopener (by decide)]
        decide
  obtain ⟨longer, hlonger, hle⟩ := le_definitionArguments? hrest harguments (Nat.le_refl _)
  refine ⟨_, newCommand_eq_some_iff.mpr ⟨hescaped, by rwa [hword], longer, ?_, rfl⟩, ?_⟩
  · rwa [hstar]
  · rw [hword, hstar]
    simp only
    omega

theorem definition_of_blanked (h : definition context copy = some construct)
    (hword : controlWord text = controlWord copy)
    (hblanked : IsBlanked (construct.length - (1 + (controlWord copy).length))
      (afterControlWord text) (afterControlWord copy)) :
    definition context text = some construct := by
  have hdef : (Text.ofString "def").length = 3 := by decide
  obtain ⟨hescaped, hcontrol, behind, group, hafter, hname, hgroup, rfl⟩ :=
    definition_eq_some_iff.mp h
  have hpos := braced?_pos hgroup
  obtain ⟨first, copy', rfl⟩ : ∃ first copy', behind = first :: copy' :=
    List.exists_cons_of_ne_nil (by rintro rfl; exact hname rfl)
  have hfirst : isMacroNameByte first = true := by
    by_contra hnot
    exact hname (List.takeWhile_cons_of_neg hnot)
  have hfirst' : (first != ('{' : UInt8)) = true := by
    rw [bne_iff_ne]
    rintro rfl
    revert hfirst
    decide
  have hhead : ∀ rest : Text, definitionHead (first :: rest) =
      (rest.takeWhile (· != ('{' : UInt8))).length + 1 := by
    intro rest
    rw [definitionHead_eq, List.takeWhile_cons, if_pos hfirst', List.length_cons]
  rw [hcontrol, hdef, hafter] at hblanked
  obtain ⟨shorter, text', hlength, htext, hrest⟩ :=
    hblanked.behind_literal (by simp only; omega) rfl
  simp only [hhead] at hlength
  rw [hhead, List.drop_succ_cons] at hgroup
  generalize hrun : (copy'.takeWhile (· != ('{' : UInt8))).length = run at hlength hgroup
  -- The brace that ends the parameters is the same one in both texts, and so is its group.
  have hbrace := head?_of_braced?_eq_some hgroup
  obtain ⟨hthrough, hinside⟩ := through?_keepsBlanks
    (fun _ hb => beq_false_of_ne (ne_of_isGroupByte hb (by decide))) hrest (run + 1)
    (through?_eq_some_iff.mpr ⟨hrun, hbrace⟩) (by omega)
  obtain ⟨hrun', hbrace'⟩ := through?_eq_some_iff.mp hthrough
  have hopen : IsBlanked (shorter - run) (text'.drop run) (copy'.drop run) := by
    obtain ⟨inside, hcopy⟩ := List.head?_eq_some_iff.mp hbrace
    obtain ⟨inside', htext'⟩ := List.head?_eq_some_iff.mp hbrace'
    rw [← List.drop_drop, ← List.drop_drop, hcopy, htext'] at hinside
    rw [hcopy, htext', show shorter - run = shorter - (run + 1) + 1 by omega]
    exact .byte (by decide) hinside
  obtain ⟨hgroup', -⟩ := braced?_keepsBlanks 1 hopen group hgroup (by omega)
  refine definition_eq_some_iff.mpr
    ⟨hescaped, by rw [hword, hcontrol], first :: text', group, htext, ?_, ?_, ?_⟩
  · rw [List.takeWhile_cons_of_pos hfirst]
    exact List.cons_ne_nil _ _
  · rwa [hhead, hrun', List.drop_succ_cons]
  · rw [hhead, hhead, hrun, hrun']

end Recognizer

end LatexIntegrity
