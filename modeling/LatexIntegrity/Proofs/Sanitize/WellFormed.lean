import LatexIntegrity.Proofs.Sanitize.Correspondence
import LatexIntegrity.Proofs.Text.WellFormed

/-!
# Sanitization of well-formed texts

What a pass writes may stand in the place of what it reads in every well-formed text.  No
byte matters but the first one of a key or of a region, in front of which a text may be cut.
-/

namespace LatexIntegrity

open Utf8 (Substitutes WellFormed isContinuation)
open EscapePass (State)

def EscapeTable.IsWellFormed (table : EscapeTable) : Prop :=
  ∀ entry ∈ table.entries,
    entry.key ≠ [] ∧ WellFormed entry.key ∧ WellFormed entry.replacement

instance (table : EscapeTable) : Decidable table.IsWellFormed :=
  inferInstanceAs (Decidable (∀ entry ∈ table.entries, _))

namespace EscapePass

theorem wellFormed_separator : WellFormed separator :=
  Utf8.wellFormed_of_all (by decide)

theorem State.wellFormed_gap (state : State) (next : Option UInt8) :
    WellFormed (state.gap next) := by
  rw [State.gap]
  split
  · exact wellFormed_separator
  · exact Utf8.wellFormed_nil

theorem State.wellFormed_written (state : State) {replacement : Text}
    (h : WellFormed replacement) : WellFormed (state.written replacement) := by
  rw [State.written]
  split
  · exact wellFormed_separator.append h
  · exact h

theorem State.substitutes_gap {source target : Text} (h : Substitutes source target)
    (state : State) : Substitutes source (state.gap source.head? ++ target) := by
  cases source with
  | nil => simpa [State.gap] using h
  | cons b source =>
      by_cases hb : isContinuation b = true
      · -- Only a dollar sign is kept apart.
        have hne : (some b == some ('$' : UInt8)) = false := by
          rw [beq_eq_false_iff_ne]
          rintro ⟨⟩
          revert hb
          decide
        rw [State.gap, List.head?_cons, hne, Bool.and_false, if_neg Bool.false_ne_true]
        exact h
      · exact h.insert (by simpa using hb) (state.wellFormed_gap _)

end EscapePass

theorem EscapeTable.IsWellFormed.respects {table : EscapeTable} (h : table.IsWellFormed) :
    table.Respects Substitutes where
  refl := Substitutes.refl
  append := Substitutes.append
  gap := fun state _ _ hsource => state.substitutes_gap hsource
  key_ne_nil := fun entry hentry => (h entry hentry).1
  replace := by
    intro entry hentry state
    obtain ⟨hne, hkey, hreplacement⟩ := h entry hentry
    exact .of_wellFormed hkey hne (state.wellFormed_written hreplacement)

namespace EscapeTables

variable {tables : EscapeTables}

theorem wellFormed_proseOutput (hprose : tables.prose.StaysInside ∧ tables.prose.IsWellFormed)
    (hcells : tables.cells.StaysInside ∧ tables.cells.IsWellFormed) {text : Text}
    (h : WellFormed text) : WellFormed (tables.proseEscaper.output text) :=
  (relates_proseOutput ⟨hprose.1, hprose.2.respects⟩ ⟨hcells.1, hcells.2.respects⟩
    text).wellFormed h

theorem standard_wellFormed : standard.typography.IsWellFormed ∧
    (standard.prose.StaysInside ∧ standard.prose.IsWellFormed) ∧
      (standard.cells.StaysInside ∧ standard.cells.IsWellFormed) := by
  decide +kernel

end EscapeTables

theorem wellFormed_normalizeTypography {table : EscapeTable} (htable : table.IsWellFormed)
    {text : Text} (h : WellFormed text) : WellFormed (normalizeTypography table text) :=
  (relates_normalizeTypography htable.respects text).wellFormed h

theorem wellFormed_sanitize {text : Text} (h : WellFormed text) (scope : SanitizeScope) :
    WellFormed (sanitize .standard scope text) := by
  obtain ⟨htypography, hprose, hcells⟩ := EscapeTables.standard_wellFormed
  cases scope with
  | full =>
      rw [EscapeTables.sanitize_full_eq_output hprose.1]
      exact EscapeTables.wellFormed_proseOutput hprose hcells
        (wellFormed_normalizeTypography htypography h)
  | onlyTables =>
      rw [EscapeTables.sanitize_onlyTables_eq_output]
      have hempty : EscapeTable.empty.StaysInside ∧ EscapeTable.empty.IsWellFormed := by decide
      exact @EscapeTables.wellFormed_proseOutput EscapeTables.standard.onlyCells hempty hcells _ h

end LatexIntegrity
