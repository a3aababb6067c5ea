import Mathlib.Order.Bounds.Defs
import LatexIntegrity.Proofs.Region.Commands
import LatexIntegrity.Proofs.Span.Tiling

/-!
# The shapes of regions

What a shielded span looks like, kind by kind, in terms of the offsets of the text: how
it begins, and which of the places where it might end is the one where it does.  Nothing
is said in terms of a search, and a place where nothing may end is passed over.
-/

namespace LatexIntegrity

/-! ## Places -/

def StandsAt (text token : Text) (offset : Nat) : Prop :=
  isEscapedAt text offset = false ∧ token <+: text.drop offset

def IsLoneDollarAt (text : Text) (offset : Nat) : Prop :=
  StandsAt text "$" offset ∧ text[offset + 1]? ≠ some ('$' : UInt8) ∧
    ∀ before, offset = before + 1 → text[before]? ≠ some ('$' : UInt8)

variable {text : Text} {offset : Nat}

theorem isLeast_of_distance? {p : LeftContext → Text → Bool} {start distance : Nat}
    (h : distance? p (.after (text.take start)) (text.drop start) = some distance) :
    IsLeast {offset | start ≤ offset ∧ p (.after (text.take offset)) (text.drop offset) = true}
      (start + distance) := by
  constructor
  · have hfound := (distance?_spec h).2
    rw [LeftContext.after_take_add, List.drop_drop] at hfound
    exact ⟨Nat.le_add_right _ _, hfound⟩
  · rintro offset ⟨hstart, hoffset⟩
    by_contra hlt
    obtain ⟨earlier, rfl⟩ := Nat.exists_eq_add_of_le hstart
    have hnot := eq_false_of_lt_distance? h (show earlier < distance by omega)
    rw [LeftContext.after_take_add, List.drop_drop] at hnot
    rw [hnot] at hoffset
    cases hoffset

theorem standsAt_iff {token : Text} :
    (!(LeftContext.after (text.take offset)).escaped && token.isPrefixOf (text.drop offset)) =
      true ↔ StandsAt text token offset := by
  simp [StandsAt, isEscapedAt]

theorem dollar_after_take (h : offset ≤ text.length) :
    (LeftContext.after (text.take offset)).dollar = true ↔
      ∃ before, offset = before + 1 ∧ text[before]? = some ('$' : UInt8) := by
  cases offset with
  | zero => simp [LeftContext.after, LeftContext.initial]
  | succ before =>
      have hlt : before < text.length := h
      rw [← List.take_append_getElem hlt, LeftContext.after_concat]
      simp [hlt]

theorem isLoneDollar_iff :
    Recognizer.isLoneDollar (.after (text.take offset)) (text.drop offset) = true ↔
      IsLoneDollarAt text offset := by
  have hdollar : Text.ofString "$" = [('$' : UInt8)] := by decide
  by_cases hlt : offset < text.length
  · have hnext : (text.drop (offset + 1)).head? = text[offset + 1]? := List.head?_drop
    have hbefore := dollar_after_take (Nat.le_of_lt hlt)
    rw [List.drop_eq_getElem_cons hlt, Recognizer.isLoneDollar, hnext, IsLoneDollarAt, StandsAt,
      hdollar, List.drop_eq_getElem_cons hlt, isEscapedAt]
    rw [← not_iff_not, Bool.not_eq_true] at hbefore
    simp only [not_exists, not_and] at hbefore
    simp only [Bool.and_eq_true, beq_iff_eq, bne_iff_ne, ne_eq, Bool.not_eq_true', hbefore,
      List.cons_prefix_cons, List.nil_prefix, and_true]
    tauto
  · have hnil : text.drop offset = [] := List.drop_eq_nil_of_le (by omega)
    simp [hnil, Recognizer.isLoneDollar, IsLoneDollarAt, StandsAt, hdollar]

/-! ## Regions that a delimiter closes -/

/--
From an occurrence of `opener` to the first occurrence of `closer` behind it, neither of
which is escaped.
-/
def IsFenced (text opener closer : Text) (start stop : Nat) : Prop :=
  StandsAt text opener start ∧
    ∃ place, IsLeast {offset | start + opener.length ≤ offset ∧ StandsAt text closer offset} place ∧
      stop = place + closer.length

def IsDollarPair (text : Text) (start stop : Nat) : Prop :=
  IsLoneDollarAt text start ∧
    ∃ place, IsLeast {offset | start < offset ∧ IsLoneDollarAt text offset} place ∧
      stop = place + 1

def IsCommentLine (text : Text) (start stop : Nat) : Prop :=
  StandsAt text "%" start ∧
    IsLeast {offset | start ≤ offset ∧ (text[offset]? = some ('\n' : UInt8) ∨ offset = text.length)}
      stop

namespace Recognizer

variable {start : Nat} {construct : Construct}

theorem isFenced_of_fenced {opener closer : Text}
    (h : (fenced opener closer).foundAt? text start = some construct) :
    IsFenced text opener closer start (start + construct.length) := by
  obtain ⟨hescaped, hopener, distance, hdistance, rfl⟩ := fenced_eq_some_iff.mp h
  refine ⟨⟨hescaped, hopener⟩, start + opener.length + distance, ?_, by simp only; omega⟩
  rw [List.prefix_iff_eq_take.mp hopener, LeftContext.after_take_add,
    ← List.prefix_iff_eq_take.mp hopener, List.drop_drop] at hdistance
  have hleast := isLeast_of_distance? hdistance
  simpa only [standsAt_iff] using hleast

theorem isDollarPair_of_inlineMath (h : inlineMath.foundAt? text start = some construct) :
    IsDollarPair text start (start + construct.length) := by
  obtain ⟨b, rest, hrest, hlone, distance, hdistance, rfl⟩ := inlineMath_eq_some_iff.mp h
  have hpush : (LeftContext.after (text.take start)).push b = .after (text.take (start + 1)) := by
    rw [← LeftContext.after_take_add, hrest]
    rfl
  have hdrop : rest = text.drop (start + 1) := by
    rw [← List.drop_drop, hrest]
    rfl
  rw [hpush, hdrop] at hdistance
  have hleast := isLeast_of_distance? hdistance
  simp only [isLoneDollar_iff] at hleast
  exact ⟨isLoneDollar_iff.mp hlone, start + 1 + distance, hleast, by simp only; omega⟩

theorem isCommentLine_of_comment (h : comment.foundAt? text start = some construct) :
    IsCommentLine text start (start + construct.length) := by
  have hpercent : Text.ofString "%" = [('%' : UInt8)] := by decide
  obtain ⟨-, hfit, hend, -⟩ := comment_spec h
  obtain ⟨hescaped, rest, hrest, hconstruct⟩ := comment_eq_some_iff.mp h
  have hlength := congrArg List.length hrest
  rw [List.length_drop, List.length_cons] at hlength
  rw [List.length_drop] at hfit
  refine ⟨⟨hescaped, by rw [hrest, hpercent]; exact List.prefix_append _ rest⟩, ⟨?_, ?_⟩, ?_⟩
  · simp
  · rw [List.drop_drop, List.head?_drop] at hend
    by_cases hlt : start + construct.length < text.length
    · left
      rw [List.getElem?_eq_getElem hlt, hend _ (List.getElem?_eq_getElem hlt)]
    · right
      omega
  · rintro offset ⟨hstart, hoffset⟩
    by_contra hlt
    have hinside : offset - start < construct.length := by omega
    have hbyte : text[offset]? = (('%' : UInt8) :: rest)[offset - start]? := by
      rw [← hrest, List.getElem?_drop]
      congr 1
      omega
    rcases hoffset with hfeed | rfl
    · have hrun : (('%' : UInt8) :: rest).take construct.length =
          ('%' : UInt8) :: rest.takeWhile (· != ('\n' : UInt8)) := by
        rw [hconstruct, Nat.add_comm, List.take_succ_cons]
        exact congrArg _ (take_length_takeWhile _ _)
      rw [hbyte, ← List.getElem?_take_of_lt hinside, hrun] at hfeed
      rcases List.mem_cons.mp (List.mem_of_getElem? hfeed) with hpercent | hmem
      · cases hpercent
      · simpa using List.all_eq_true.mp List.all_takeWhile _ hmem
    · omega

end Recognizer

/-! ## All kinds -/

/--
What a span of each kind looks like.  Environments begin and end with the delimiters of
their name.
-/
def Span.HasShape (text : Text) (span : Span) : Prop :=
  match span.kind with
  | .plain => True
  | .comment => IsCommentLine text span.start span.stop
  | .inlineMath => IsDollarPair text span.start span.stop
  | .displayMath => IsFenced text "$$" "$$" span.start span.stop
  | .delimitedMath =>
      IsFenced text "\\(" "\\)" span.start span.stop ∨
        IsFenced text "\\[" "\\]" span.start span.stop
  | .environment =>
      isShieldedEnvironment span.name = true ∧
        IsFenced text (DelimiterToken.mk .opening span.name).source
          (DelimiterToken.mk .closing span.name).source span.start span.stop
  | .definition =>
      isEscapedAt text span.start = false ∧
        Recognizer.IsDefinition (text.drop span.stop) (text.slice span.start span.stop)
  | .command =>
      isEscapedAt text span.start = false ∧
        Recognizer.IsCommand (text.slice span.start span.stop)

theorem Recognizer.hasShape_of_mem_table {entry : RegionKind × Recognizer} (hentry : entry ∈ table)
    {start : Nat} {construct : Construct} (h : entry.2.foundAt? text start = some construct) :
    Span.HasShape text ⟨start, start + construct.length, entry.1, construct.name⟩ := by
  have hescaped : isEscapedAt text start = false := escaped_of_mem_table hentry h
  have hslice : text.slice start (start + construct.length) =
      (text.drop start).take construct.length := by
    rw [Text.slice, Nat.add_sub_cancel_left]
  simp only [table, List.mem_cons, List.not_mem_nil, or_false] at hentry
  rcases hentry with rfl | rfl | rfl | rfl | rfl | rfl | rfl | rfl | rfl
  · exact isCommentLine_of_comment h
  · refine ⟨hescaped, ?_⟩
    rw [hslice, ← List.drop_drop]
    exact isDefinition_of_newCommand h
  · refine ⟨hescaped, ?_⟩
    rw [hslice]
    exact isDefinition_of_definition h _
  · rw [displayMath_eq_fenced] at h
    exact isFenced_of_fenced h
  · exact isDollarPair_of_inlineMath h
  · exact .inl (isFenced_of_fenced h)
  · exact .inr (isFenced_of_fenced h)
  · obtain ⟨hshielded, hfenced⟩ := environment_eq_some_iff.mp h
    have hshape := @isFenced_of_fenced text start ⟨construct.length, []⟩ _ _ hfenced
    exact ⟨hshielded, hshape⟩
  · refine ⟨hescaped, ?_⟩
    rw [hslice]
    exact isCommand_of_command h

theorem Span.IsFirstMatch.hasShape {span : Span} (h : span.IsFirstMatch text)
    (hbounds : span.start ≤ span.stop) (hshielded : span.isShielded = true) :
    span.HasShape text := by
  have hstop : span.start + (span.stop - span.start) = span.stop := by omega
  obtain ⟨before, recognize, after, htable, -, hfound⟩ := h.found hshielded
  have hentry : (span.kind, recognize) ∈ Recognizer.table := by rw [htable]; simp
  have hshape := Recognizer.hasShape_of_mem_table hentry hfound
  rwa [hstop] at hshape

/--
Every shielded span has the shape of its kind: it begins at a byte that is not escaped,
and it ends with the nearest delimiter that may close it.
-/
theorem segment_hasShape (text : Text) : ∀ span ∈ segment text, span.HasShape text := by
  intro span hspan
  have hbounds := (tiles_segment text).bounds hspan
  cases hshielded : span.isShielded with
  | false =>
      have hkind : span.kind = .plain := by
        simpa [Span.isShielded, RegionKind.isShielded] using hshielded
      simp [Span.HasShape, hkind]
  | true =>
      exact (isFirstMatch_of_mem_spans [] text span hspan).hasShape (by omega) hshielded

/-- An escaped pair of dollars does not close display mathematics. -/
theorem segment_hasShape_display :
    (⟨0, 9, .displayMath, []⟩ : Span) ∈ segment "$$a\\$$b$$" ∧
      IsFenced "$$a\\$$b$$" "$$" "$$" 0 9 := by
  have hspan : (⟨0, 9, .displayMath, []⟩ : Span) ∈ segment "$$a\\$$b$$" := by decide +kernel
  exact ⟨hspan, segment_hasShape "$$a\\$$b$$" _ hspan⟩

end LatexIntegrity
