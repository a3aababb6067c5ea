import LatexIntegrity.Proofs.Sanitize.WellFormed
import LatexIntegrity.Proofs.Text.Lines

/-!
# Sanitization line by line

Neither the keys nor the replacements of the standard tables hold a line feed, so that
every line of a text becomes one line.  Empty lines stay empty, and a line becomes empty
only if all of it is deleted, which happens to nothing but zero-width spaces.
-/

namespace LatexIntegrity

open EscapePass (State separator)

def MatchesLines (relates : Text → Text → Prop) (source target : Text) : Prop :=
  List.Forall₂ relates (Text.lines source) (Text.lines target)

structure IsLineRelation (relates : Text → Text → Prop) : Prop where
  refl : ∀ line, relates line line
  append : ∀ {line target line' target' : Text}, relates line target → relates line' target' →
    relates (line ++ line') (target ++ target')
  guard : ∀ {line target : Text}, line ≠ [] → relates line target →
    relates line (separator ++ target)

def EscapeTable.StaysOnLine (table : EscapeTable) : Prop :=
  ∀ entry ∈ table.entries, entry.key ≠ [] ∧ entry.key.IsUnbroken ∧ entry.replacement.IsUnbroken

instance (table : EscapeTable) : Decidable table.StaysOnLine :=
  inferInstanceAs (Decidable (∀ entry ∈ table.entries, _))

namespace IsLineRelation

variable {relates : Text → Text → Prop}

theorem matchesLines_append (h : IsLineRelation relates) {source target source' target' : Text}
    (hfirst : MatchesLines relates source target) (hsecond : MatchesLines relates source' target') :
    MatchesLines relates (source ++ source') (target ++ target') := by
  unfold MatchesLines
  rw [Text.lines_append, Text.lines_append]
  exact Text.forall₂_joinLines h.append hfirst hsecond

theorem matchesLines_of_isUnbroken {line target : Text} (hline : line.IsUnbroken)
    (htarget : target.IsUnbroken) (h : relates line target) : MatchesLines relates line target := by
  rw [MatchesLines, Text.lines_of_isUnbroken hline, Text.lines_of_isUnbroken htarget]
  exact .cons h .nil

theorem matchesLines_gap (h : IsLineRelation relates) (state : State) {source target : Text}
    (hsource : MatchesLines relates source target) :
    MatchesLines relates source (state.gap source.head? ++ target) := by
  rw [State.gap]
  split
  · next hgap =>
      rw [Bool.and_eq_true, beq_iff_eq] at hgap
      obtain ⟨rest, rfl⟩ := List.head?_eq_some_iff.mp hgap.2
      have hseparator : separator.IsUnbroken := by decide
      obtain ⟨line, others, hlines⟩ := List.exists_cons_of_ne_nil (Text.lines_ne_nil rest)
      unfold MatchesLines at hsource ⊢
      rw [Text.lines_append, Text.lines_of_isUnbroken hseparator]
      rw [Text.lines_cons, if_neg (by decide), hlines, List.modifyHead_cons] at hsource ⊢
      cases htarget : Text.lines target with
      | nil => exact absurd htarget (Text.lines_ne_nil target)
      | cons first behind =>
          rw [htarget] at hsource
          obtain ⟨hfirst, hbehind⟩ := List.forall₂_cons.mp hsource
          exact .cons (h.guard (List.cons_ne_nil _ _) hfirst) hbehind
  · exact hsource

theorem respects (h : IsLineRelation relates) {table : EscapeTable} (htable : table.StaysOnLine)
    (hreplace : ∀ entry ∈ table.entries, relates entry.key entry.replacement) :
    table.Respects (MatchesLines relates) where
  refl := fun text => List.forall₂_same.mpr fun line _ => h.refl line
  append := h.matchesLines_append
  gap := h.matchesLines_gap
  key_ne_nil := fun entry hentry => (htable entry hentry).1
  replace := by
    intro entry hentry state
    obtain ⟨hne, hkey, hreplacement⟩ := htable entry hentry
    have hseparator : separator.IsUnbroken := by decide
    rw [State.written]
    split
    · exact matchesLines_of_isUnbroken hkey (Text.isUnbroken_append.mpr ⟨hseparator, hreplacement⟩)
        (h.guard hne (hreplace entry hentry))
    · exact matchesLines_of_isUnbroken hkey hreplacement (hreplace entry hentry)

end IsLineRelation

/-! ## What becomes of a line -/

/-- A line stays as it is or comes to hold an ASCII character, and an empty one stays empty. -/
def WritesLine (line target : Text) : Prop :=
  (line = [] → target = []) ∧ (target = line ∨ ∃ b ∈ target, Ascii.contains b = true)

def zeroWidthSpace : Text := "\u200b"

def IsZeroWidth (line : Text) : Prop :=
  ∃ count, line = (List.replicate count zeroWidthSpace).flatten

/-- Only a line of zero-width spaces becomes empty, and an empty line stays empty. -/
def EmptiesZeroWidth (line target : Text) : Prop :=
  (line = [] → target = []) ∧ (target = [] → IsZeroWidth line)

theorem IsZeroWidth.append {line line' : Text} (h : IsZeroWidth line) (h' : IsZeroWidth line') :
    IsZeroWidth (line ++ line') := by
  obtain ⟨count, rfl⟩ := h
  obtain ⟨count', rfl⟩ := h'
  exact ⟨count + count', by rw [← List.flatten_append, List.replicate_append_replicate]⟩

theorem IsZeroWidth.not_ascii {line : Text} (h : IsZeroWidth line) {b : UInt8} (hb : b ∈ line) :
    Ascii.contains b = false := by
  have hall : (zeroWidthSpace.all fun b => !Ascii.contains b) = true := by decide
  obtain ⟨count, rfl⟩ := h
  obtain ⟨piece, hpiece, hb⟩ := List.mem_flatten.mp hb
  rw [List.eq_of_mem_replicate hpiece] at hb
  simpa using List.all_eq_true.mp hall b hb

theorem isLineRelation_writesLine : IsLineRelation WritesLine where
  refl := fun line => ⟨id, .inl rfl⟩
  append := by
    rintro line target line' target' ⟨hempty, hwritten⟩ ⟨hempty', hwritten'⟩
    refine ⟨fun h => ?_, ?_⟩
    · obtain ⟨hline, hline'⟩ := List.append_eq_nil_iff.mp h
      rw [hempty hline, hempty' hline', List.append_nil]
    · rcases hwritten with rfl | ⟨b, hb, hascii⟩
      · rcases hwritten' with rfl | ⟨b, hb, hascii⟩
        · exact .inl rfl
        · exact .inr ⟨b, List.mem_append_right _ hb, hascii⟩
      · exact .inr ⟨b, List.mem_append_left _ hb, hascii⟩
  guard := by
    intro line target hline _
    have hbrace : ('{' : UInt8) ∈ separator := by decide
    exact ⟨fun hempty => absurd hempty hline,
      .inr ⟨'{', List.mem_append_left _ hbrace, by decide⟩⟩

theorem isLineRelation_emptiesZeroWidth : IsLineRelation EmptiesZeroWidth where
  refl := fun line => ⟨id, fun h => ⟨0, h⟩⟩
  append := by
    rintro line target line' target' ⟨hempty, hdeleted⟩ ⟨hempty', hdeleted'⟩
    refine ⟨fun h => ?_, fun h => ?_⟩
    · obtain ⟨hline, hline'⟩ := List.append_eq_nil_iff.mp h
      rw [hempty hline, hempty' hline', List.append_nil]
    · obtain ⟨htarget, htarget'⟩ := List.append_eq_nil_iff.mp h
      exact (hdeleted htarget).append (hdeleted' htarget')
  guard := by
    intro line target hline _
    have hne : separator ≠ [] := by decide
    exact ⟨fun hempty => absurd hempty hline,
      fun hempty => absurd (List.append_eq_nil_iff.mp hempty).1 hne⟩

theorem WritesLine.emptiesZeroWidth {line target : Text} (h : WritesLine line target) :
    EmptiesZeroWidth line target := by
  obtain ⟨hempty, rfl | ⟨b, hb, -⟩⟩ := h
  · exact isLineRelation_emptiesZeroWidth.refl _
  · exact ⟨hempty, fun htarget => absurd (htarget ▸ hb) List.not_mem_nil⟩

theorem WritesLine.trans_emptiesZeroWidth {line between target : Text} (h : WritesLine line between)
    (h' : EmptiesZeroWidth between target) : EmptiesZeroWidth line target := by
  obtain ⟨hempty, hwritten⟩ := h
  refine ⟨fun hline => h'.1 (hempty hline), fun htarget => ?_⟩
  have hzero := h'.2 htarget
  rcases hwritten with rfl | ⟨b, hb, hascii⟩
  · exact hzero
  · rw [hzero.not_ascii hb] at hascii
    cases hascii

namespace MatchesLines

variable {relates relates' composed : Text → Text → Prop} {source between target : Text}

theorem length_eq (h : MatchesLines relates source target) :
    (Text.lines source).length = (Text.lines target).length :=
  List.Forall₂.length_eq h

theorem mono (h : MatchesLines relates source target)
    (himp : ∀ {line target}, relates line target → relates' line target) :
    MatchesLines relates' source target :=
  List.Forall₂.imp (fun _ _ => himp) h

theorem trans (h : MatchesLines relates source between) (h' : MatchesLines relates' between target)
    (hcompose : ∀ {line between target}, relates line between → relates' between target →
      composed line target) : MatchesLines composed source target := by
  unfold MatchesLines at h h' ⊢
  generalize Text.lines source = sources at h ⊢
  generalize Text.lines between = lines at h h'
  generalize Text.lines target = targets at h' ⊢
  induction h generalizing targets with
  | nil =>
      cases h'
      exact .nil
  | cons hline _ ih =>
      cases h' with
      | cons hline' hrest => exact .cons (hcompose hline hline') (ih _ hrest)

end MatchesLines

/-! ## The standard tables -/

namespace EscapeTables

theorem standard_writesLine :
    ∀ table ∈ [standard.typography, standard.cells, EscapeTable.empty], table.StaysOnLine ∧
      ∀ entry ∈ table.entries, ∃ b ∈ entry.replacement, Ascii.contains b = true := by
  decide

theorem standard_emptiesZeroWidth :
    ∀ table ∈ [standard.prose, standard.cells], table.StaysOnLine ∧
      ∀ entry ∈ table.entries, entry.replacement = [] → entry.key = zeroWidthSpace := by
  decide

theorem respects_writesLine {table : EscapeTable}
    (htable : table ∈ [standard.typography, standard.cells, EscapeTable.empty]) :
    table.Respects (MatchesLines WritesLine) := by
  obtain ⟨hline, hascii⟩ := standard_writesLine table htable
  refine isLineRelation_writesLine.respects hline fun entry hentry => ?_
  exact ⟨fun hkey => absurd hkey (hline entry hentry).1, .inr (hascii entry hentry)⟩

theorem respects_emptiesZeroWidth {table : EscapeTable}
    (htable : table ∈ [standard.prose, standard.cells]) :
    table.Respects (MatchesLines EmptiesZeroWidth) := by
  obtain ⟨hline, hdeleted⟩ := standard_emptiesZeroWidth table htable
  refine isLineRelation_emptiesZeroWidth.respects hline fun entry hentry => ?_
  refine ⟨fun hkey => absurd hkey (hline entry hentry).1, fun hempty => ⟨1, ?_⟩⟩
  rw [hdeleted entry hentry hempty, List.replicate_one, List.flatten_singleton]

end EscapeTables

open EscapeTables

theorem matchesLines_sanitize_onlyTables (text : Text) :
    MatchesLines WritesLine text (sanitize .standard .onlyTables text) := by
  obtain ⟨-, -, hcells⟩ := standard_wellFormed
  have hempty : EscapeTable.empty.StaysInside := by decide
  rw [sanitize_onlyTables_eq_output]
  exact @relates_proseOutput _ standard.onlyCells
    ⟨hempty, respects_writesLine (by simp [onlyCells])⟩
    ⟨hcells.1, respects_writesLine (by simp [onlyCells])⟩ text

theorem matchesLines_sanitize (scope : SanitizeScope) (text : Text) :
    MatchesLines EmptiesZeroWidth text (sanitize .standard scope text) := by
  cases scope with
  | onlyTables => exact (matchesLines_sanitize_onlyTables text).mono WritesLine.emptiesZeroWidth
  | full =>
      obtain ⟨-, hprose, hcells⟩ := standard_wellFormed
      rw [sanitize_full_eq_output hprose.1]
      have htypography := relates_normalizeTypography (respects_writesLine List.mem_cons_self) text
      have hescaped := relates_proseOutput ⟨hprose.1, respects_emptiesZeroWidth (by simp)⟩
        ⟨hcells.1, respects_emptiesZeroWidth (by simp)⟩
        (normalizeTypography standard.typography text)
      exact htypography.trans hescaped WritesLine.trans_emptiesZeroWidth

end LatexIntegrity
