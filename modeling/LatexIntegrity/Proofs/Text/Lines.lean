import Mathlib.Data.List.Forall2
import LatexIntegrity.Text.Basic

/-!
# The lines of a text

Lines hold no line feed, and they determine the text.  If two texts stand one behind the
other, then the last line of the first one goes on with the first line of the second one.
-/

namespace LatexIntegrity.Text

/-! ## Texts without a line feed -/

def IsUnbroken (text : Text) : Prop := ('\n' : UInt8) ∉ text

instance (text : Text) : Decidable text.IsUnbroken :=
  inferInstanceAs (Decidable (_ ∉ _))

theorem isUnbroken_nil : IsUnbroken [] := List.not_mem_nil

@[simp] theorem isUnbroken_append {first second : Text} :
    IsUnbroken (first ++ second) ↔ first.IsUnbroken ∧ second.IsUnbroken := by
  simp [IsUnbroken]

theorem isUnbroken_cons {b : UInt8} {rest : Text} :
    IsUnbroken (b :: rest) ↔ b ≠ '\n' ∧ rest.IsUnbroken := by
  simp [IsUnbroken, eq_comm]

namespace IsUnbroken

variable {text part : Text}

theorem of_subset (h : text.IsUnbroken) (hpart : part ⊆ text) : part.IsUnbroken :=
  fun hmem => h (hpart hmem)

theorem take (h : text.IsUnbroken) (length : Nat) : IsUnbroken (text.take length) :=
  h.of_subset (List.take_subset length text)

theorem drop (h : text.IsUnbroken) (offset : Nat) : IsUnbroken (text.drop offset) :=
  h.of_subset (List.drop_subset offset text)

theorem trimEnd (h : text.IsUnbroken) (p : UInt8 → Bool) : IsUnbroken (text.trimEnd p) := by
  refine h.of_subset fun b hb => ?_
  rw [Text.trimEnd, List.mem_reverse] at hb
  exact List.mem_reverse.mp ((List.dropWhile_sublist p).subset hb)

theorem trim (h : text.IsUnbroken) (p : UInt8 → Bool) : IsUnbroken (text.trim p) :=
  (h.of_subset (List.dropWhile_sublist p).subset).trimEnd p

end IsUnbroken

/-- A line as it is printed: its only line feed is its last byte. -/
def IsPrintedLine (text : Text) : Prop := ∃ line, text = line ++ "\n" ∧ line.IsUnbroken

/-! ## Lines -/

theorem splitAt_eq_splitOn (separator : UInt8) (text : Text) :
    splitAt separator text = text.splitOn separator := by
  induction text with
  | nil => rfl
  | cons b rest ih =>
      rw [splitAt, ih, List.splitOn, List.splitOn, List.splitOnP_cons_eq_if_modifyHead]
      split
      · rfl
      · cases hpieces : List.splitOnP (· == separator) rest with
        | nil => exact absurd hpieces (List.splitOnP_ne_nil _ _)
        | cons piece pieces => rfl

theorem splitAt_ne_nil (separator : UInt8) (text : Text) : splitAt separator text ≠ [] := by
  rw [splitAt_eq_splitOn]
  exact List.splitOn_ne_nil _ _

theorem splitAt_cons (separator b : UInt8) (rest : Text) :
    splitAt separator (b :: rest) =
      if b = separator then [] :: splitAt separator rest
      else (splitAt separator rest).modifyHead (b :: ·) := by
  simp only [splitAt_eq_splitOn, List.splitOn, List.splitOnP_cons_eq_if_modifyHead, beq_iff_eq]

theorem of_mem_splitAt {separator : UInt8} {text piece : Text}
    (h : piece ∈ splitAt separator text) : separator ∉ piece ∧ piece ⊆ text := by
  induction text generalizing piece with
  | nil =>
      rw [List.mem_singleton.mp (show piece ∈ [[]] from h)]
      exact ⟨List.not_mem_nil, List.nil_subset _⟩
  | cons b rest ih =>
      have hrest : ∀ piece ∈ splitAt separator rest, separator ∉ piece ∧ piece ⊆ b :: rest := by
        intro piece hpiece
        obtain ⟨hseparator, hsubset⟩ := ih hpiece
        exact ⟨hseparator, List.subset_cons_of_subset _ hsubset⟩
      rw [splitAt_cons] at h
      split at h
      · rcases List.mem_cons.mp h with rfl | h
        · exact ⟨List.not_mem_nil, List.nil_subset _⟩
        · exact hrest piece h
      · next hb =>
          obtain ⟨first, others, hcons⟩ :=
            List.exists_cons_of_ne_nil (splitAt_ne_nil separator rest)
          rw [hcons, List.modifyHead_cons] at h
          rw [hcons] at hrest
          rcases List.mem_cons.mp h with rfl | h
          · obtain ⟨hseparator, hsubset⟩ := hrest first List.mem_cons_self
            exact ⟨List.not_mem_cons_of_ne_of_not_mem (Ne.symm hb) hseparator,
              List.cons_subset.mpr ⟨List.mem_cons_self, hsubset⟩⟩
          · exact hrest piece (List.mem_cons_of_mem _ h)

theorem lines_ne_nil (text : Text) : lines text ≠ [] := splitAt_ne_nil _ text

theorem lines_of_isUnbroken {line : Text} (h : line.IsUnbroken) : lines line = [line] := by
  rw [lines, splitAt_eq_splitOn]
  exact List.splitOn_eq_singleton h

theorem lines_injective : Function.Injective lines := by
  intro first second h
  rw [lines, lines, splitAt_eq_splitOn, splitAt_eq_splitOn] at h
  calc first
    _ = List.intercalate [('\n' : UInt8)] (first.splitOn ('\n' : UInt8)) :=
        (List.intercalate_splitOn _).symm
    _ = List.intercalate [('\n' : UInt8)] (second.splitOn ('\n' : UInt8)) := by rw [h]
    _ = second := List.intercalate_splitOn _

theorem lines_cons (b : UInt8) (rest : Text) :
    lines (b :: rest) =
      if b = '\n' then [] :: lines rest else (lines rest).modifyHead (b :: ·) :=
  splitAt_cons _ b rest

theorem isUnbroken_of_mem_lines {line text : Text} (h : line ∈ lines text) : line.IsUnbroken :=
  (of_mem_splitAt h).1

/-- The lines of two texts of which the second one stands behind the first one. -/
def joinLines : List Text → List Text → List Text
  | [], second => second
  | [last], [] => [last]
  | [last], next :: second => (last ++ next) :: second
  | line :: next :: first, second => line :: joinLines (next :: first) second

theorem lines_append (first second : Text) :
    lines (first ++ second) = joinLines (lines first) (lines second) := by
  obtain ⟨next, others, hsecond⟩ := List.exists_cons_of_ne_nil (lines_ne_nil second)
  induction first with
  | nil =>
      rw [List.nil_append, hsecond]
      rfl
  | cons b rest ih =>
      obtain ⟨line, lines', hrest⟩ := List.exists_cons_of_ne_nil (lines_ne_nil rest)
      rw [List.cons_append, lines_cons, lines_cons, ih, hrest, hsecond]
      by_cases hb : b = ('\n' : UInt8)
      · rw [if_pos hb, if_pos hb, joinLines]
      · rw [if_neg hb, if_neg hb]
        cases lines' with
        | nil => rfl
        | cons line' lines' => rfl

theorem forall₂_joinLines {relates : Text → Text → Prop}
    (happend : ∀ {line target line' target' : Text}, relates line target →
      relates line' target' → relates (line ++ line') (target ++ target'))
    {first target second target' : List Text} (h : List.Forall₂ relates first target)
    (h' : List.Forall₂ relates second target') :
    List.Forall₂ relates (joinLines first second) (joinLines target target') := by
  induction h with
  | nil => exact h'
  | cons hline hrest ih =>
      cases hrest with
      | nil =>
          cases h' with
          | nil => exact .cons hline .nil
          | cons hnext hothers => exact .cons (happend hline hnext) hothers
      | cons hnext hothers => exact .cons hline ih

/-! ## One line among others -/

/-- `line` begins directly behind the end of a line, and it ends where it is said to end. -/
structure IsLineBetween {α : Type} (isFeed : α → Bool) (before line behind : List α) : Prop where
  begins : ∀ a, before.getLast? = some a → isFeed a = true
  inside : ∀ a ∈ line, isFeed a = false
  ends : ∀ a, behind.head? = some a → isFeed a = true

theorem length_splitOnP {α : Type} (isFeed : α → Bool) (bytes : List α) :
    (bytes.splitOnP isFeed).length = bytes.countP isFeed + 1 := by
  induction bytes with
  | nil => rfl
  | cons a rest ih =>
      rw [List.splitOnP_cons_eq_if_modifyHead, List.countP_cons]
      split <;> simp_all

namespace IsLineBetween

variable {α : Type} {isFeed : α → Bool} {before line behind : List α}

theorem exists_splitOnP_eq (h : IsLineBetween isFeed before line behind) :
    ∃ first second, first.length = before.countP isFeed ∧
      ∀ line', (∀ a ∈ line', isFeed a = false) →
        (before ++ (line' ++ behind)).splitOnP isFeed = first ++ line' :: second := by
  obtain ⟨second, hbehind⟩ : ∃ second, ∀ line', (∀ a ∈ line', isFeed a = false) →
      (line' ++ behind).splitOnP isFeed = line' :: second := by
    cases hrest : behind with
    | nil =>
        refine ⟨[], fun line' hline => ?_⟩
        rw [List.append_nil, List.splitOnP_eq_singleton hline]
    | cons feed rest =>
        have hfeed := h.ends feed (by rw [hrest]; rfl)
        refine ⟨rest.splitOnP isFeed, fun line' hline => ?_⟩
        rw [List.splitOnP_append_cons _ _ hfeed, List.splitOnP_eq_singleton hline]
        rfl
  rcases before.eq_nil_or_concat with rfl | ⟨first, feed, rfl⟩
  · exact ⟨[], second, rfl, hbehind⟩
  · rw [List.concat_eq_append] at h ⊢
    have hfeed := h.begins feed List.getLast?_concat
    refine ⟨first.splitOnP isFeed, second, ?_, fun line' hline => ?_⟩
    · rw [length_splitOnP, List.countP_append, List.countP_singleton, if_pos hfeed]
    · rw [List.append_assoc, List.singleton_append, List.splitOnP_append_cons _ _ hfeed,
        hbehind line' hline]

theorem getElem?_splitOnP (h : IsLineBetween isFeed before line behind) :
    ((before ++ (line ++ behind)).splitOnP isFeed)[before.countP isFeed]? = some line := by
  obtain ⟨first, second, hlength, hsplit⟩ := h.exists_splitOnP_eq
  rw [hsplit line h.inside, ← hlength]
  simp

theorem splitOnP_modify (h : IsLineBetween isFeed before line behind)
    {change : List α → List α} (hchange : ∀ a ∈ change line, isFeed a = false) :
    (before ++ (change line ++ behind)).splitOnP isFeed =
      ((before ++ (line ++ behind)).splitOnP isFeed).modify (before.countP isFeed) change := by
  obtain ⟨first, second, hlength, hsplit⟩ := h.exists_splitOnP_eq
  rw [hsplit _ hchange, hsplit line h.inside, ← hlength, List.modify_eq_take_drop]
  simp

end IsLineBetween

theorem foldr_modify_eq_mapIdx {α : Type} (change : α → α) {numbers : List Nat}
    (hnumbers : numbers.Nodup) (items : List α) :
    numbers.foldr (fun number items => items.modify number change) items =
      items.mapIdx fun number item => if number ∈ numbers then change item else item := by
  apply List.ext_getElem?
  intro number
  rw [List.getElem?_mapIdx]
  induction numbers with
  | nil => simp
  | cons first rest ih =>
      obtain ⟨hfirst, hrest⟩ := List.nodup_cons.mp hnumbers
      rw [List.foldr_cons, List.getElem?_modify, ih hrest]
      cases items[number]? with
      | none => rfl
      | some item =>
          by_cases hnumber : first = number
          · subst hnumber
            simp [hfirst]
          · simp [hnumber, Ne.symm hnumber]

/-! ## The line that holds an offset -/

def EndsLine (text : Text) : Prop := ∀ b, text.getLast? = some b → b = '\n'

theorem EndsLine.suffix {first second : Text} (h : EndsLine (first ++ second)) :
    EndsLine second := by
  intro b hb
  refine h b ?_
  rwa [List.getLast?_append_of_ne_nil _ (by rintro rfl; cases hb)]

namespace EndsLine

variable {before : Text}

theorem drop (h : EndsLine before) (offset : Nat) : EndsLine (before.drop offset) := by
  rw [← List.take_append_drop offset before] at h
  exact h.suffix

theorem mem (h : EndsLine before) (hne : before ≠ []) : ('\n' : UInt8) ∈ before := by
  rw [← h _ (List.getLast?_eq_some_getLast hne)]
  exact List.getLast_mem hne

theorem prefix_append_iff {token : Text} (h : EndsLine before) (hne : before ≠ [])
    (htoken : token.IsUnbroken) (other : Text) : token <+: before ++ other ↔ token <+: before := by
  refine ⟨fun hstarts => ?_, fun hstarts => hstarts.trans (List.prefix_append _ _)⟩
  rcases List.prefix_or_prefix_of_prefix hstarts (List.prefix_append before other) with hin | hout
  · exact hin
  · exact absurd (hout.subset (h.mem hne)) htoken

end EndsLine

def IsLineStart (text : Text) (offset : Nat) : Prop :=
  offset ≤ text.length ∧ EndsLine (text.take offset)

def lineNumber (text : Text) (offset : Nat) : Nat :=
  (text.take offset).countP (· == ('\n' : UInt8))

variable {text : Text} {offset : Nat}

theorem lines_eq_splitOnP (text : Text) : lines text = text.splitOnP (· == ('\n' : UInt8)) :=
  splitAt_eq_splitOn _ text

theorem startOfLine_spec (h : offset ≤ text.length) :
    startOfLine text offset ≤ offset ∧ IsLineStart text (startOfLine text offset) ∧
      IsUnbroken (text.slice (startOfLine text offset) offset) := by
  generalize hlast : (text.take offset).reverse.takeWhile (· != ('\n' : UInt8)) = last
  generalize hothers : (text.take offset).reverse.dropWhile (· != ('\n' : UInt8)) = others
  have hsplit : text.take offset = others.reverse ++ last.reverse := by
    rw [← List.reverse_append, ← hlast, ← hothers, List.takeWhile_append_dropWhile,
      List.reverse_reverse]
  have hlength := congrArg List.length hsplit
  rw [List.length_append, List.length_reverse, List.length_reverse,
    List.length_take_of_le h] at hlength
  have hstart : startOfLine text offset = others.reverse.length := by
    rw [startOfLine, hlast, List.length_reverse]
    omega
  have hle : startOfLine text offset ≤ offset := by
    rw [hstart, List.length_reverse]
    omega
  have htake : text.take (startOfLine text offset) = others.reverse := by
    rw [← Nat.min_eq_left hle, ← List.take_take, hsplit, hstart, List.take_left]
  have hslice : text.slice (startOfLine text offset) offset = last.reverse := by
    rw [slice, ← List.drop_take, hsplit, hstart, List.drop_left]
  refine ⟨hle, ⟨Nat.le_trans hle h, fun b hb => ?_⟩, fun hmem => ?_⟩
  · have hnot := List.head?_dropWhile_not (· != ('\n' : UInt8)) (text.take offset).reverse
    rw [htake, List.getLast?_reverse] at hb
    rw [hothers, hb] at hnot
    simpa using hnot
  · rw [hslice, List.mem_reverse, ← hlast] at hmem
    have hnot := List.all_eq_true.mp List.all_takeWhile _ hmem
    simp at hnot

theorem endOfLine_spec (h : offset ≤ text.length) :
    offset ≤ endOfLine text offset ∧ endOfLine text offset ≤ text.length ∧
      IsUnbroken (text.slice offset (endOfLine text offset)) ∧
        ∀ b, (text.drop (endOfLine text offset)).head? = some b → b = '\n' := by
  have hinside : ∀ b ∈ (text.drop offset).takeWhile (· != ('\n' : UInt8)), b ≠ '\n' :=
    fun b hb => by simpa using List.all_eq_true.mp List.all_takeWhile b hb
  have hbehind := List.head?_dropWhile_not (· != ('\n' : UInt8)) (text.drop offset)
  have hsplit : (text.drop offset).takeWhile (· != ('\n' : UInt8)) ++
      (text.drop offset).dropWhile (· != ('\n' : UInt8)) = text.drop offset :=
    List.takeWhile_append_dropWhile
  rw [endOfLine]
  generalize (text.drop offset).takeWhile (· != ('\n' : UInt8)) = line at *
  generalize (text.drop offset).dropWhile (· != ('\n' : UInt8)) = behind at *
  have hlength := congrArg List.length hsplit
  rw [List.length_append, List.length_drop] at hlength
  refine ⟨Nat.le_add_right _ _, by omega, fun hmem => ?_, fun b hb => ?_⟩
  · rw [slice, Nat.add_sub_cancel_left, ← hsplit, List.take_left] at hmem
    exact hinside _ hmem rfl
  · rw [← List.drop_drop, ← hsplit, List.drop_left] at hb
    rw [hb] at hbehind
    simpa using hbehind

end LatexIntegrity.Text
