import LatexIntegrity.Proofs.Sanitize.Stripped
import LatexIntegrity.Proofs.Sanitize.Tabular

/-!
# The standard tables

What sanitization relies on is decided for the tables that apply unless others are given.
-/

namespace LatexIntegrity.EscapeTables

structure AreKnown (tables : EscapeTables) : Prop where
  prose : tables.prose.IsKnown
  proseKeys : tables.prose.HasCharacterKeys
  cells : Tabular.CellsAreKnown tables
  typography : tables.typography.IsTypographic
  typographyKeys : tables.typography.HasCharacterKeys

theorem forall_bytes {table : EscapeTable} (part : EscapeRule → Text) (p : UInt8 → Bool)
    (h : (table.entries.all fun entry => (part entry).all p) = true) :
    ∀ entry ∈ table.entries, ∀ b ∈ part entry, p b = true :=
  fun entry hentry => List.all_eq_true.mp (List.all_eq_true.mp h entry hentry)

theorem isKnown_standardProse : standardProse.IsKnown where
  staysInside := by decide
  ordinary := forall_bytes (·.key) isOrdinary (by decide)
  inert := by decide
  known := by decide
  names := by decide

theorem hasCharacterKeys_standardProse : standardProse.HasCharacterKeys where
  head := by decide
  tail := forall_bytes (·.key.tail) Utf8.isContinuation (by decide)
  unique := by decide

theorem isKnown_standardCells : standardCells.IsKnown where
  staysInside := by decide
  ordinary := forall_bytes (·.key) isOrdinary (by decide)
  inert := by decide
  known := by decide
  names := by decide

theorem isTypographic_standardTypography : standardTypography.IsTypographic := by
  have hkeys : ∀ entry ∈ standardTypography.entries,
      entry.key ≠ [] ∧ entry.replacement ≠ [] := by decide
  have houtside := @forall_bytes standardTypography (·.key) (!Ascii.contains ·)
    (by decide)
  have hinside := @forall_bytes standardTypography (·.replacement) Ascii.contains
    (by decide)
  constructor
  · intro entry hentry
    exact ⟨(hkeys entry hentry).1, fun b hb => by simpa using houtside entry hentry b hb⟩
  · intro entry hentry
    exact ⟨(hkeys entry hentry).2, hinside entry hentry⟩

theorem hasCharacterKeys_standardTypography : standardTypography.HasCharacterKeys where
  head := by decide
  tail := forall_bytes (·.key.tail) Utf8.isContinuation (by decide)
  unique := by decide

theorem standard_areKnown : standard.AreKnown where
  prose := isKnown_standardProse
  proseKeys := hasCharacterKeys_standardProse
  cells := ⟨isKnown_standardCells, show ∀ entry ∈ standardCells.entries, _ by decide⟩
  typography := isTypographic_standardTypography
  typographyKeys := hasCharacterKeys_standardTypography

end LatexIntegrity.EscapeTables
