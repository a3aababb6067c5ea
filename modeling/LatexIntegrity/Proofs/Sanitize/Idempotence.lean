import LatexIntegrity.Proofs.Sanitize.Settled
import LatexIntegrity.Proofs.Sanitize.Shielding

/-!
# Sanitizing twice

A sanitized text is sanitized already, provided that neither its plain spans nor those of the
cells of its tables hold a stray dollar sign, a link that is split or a formula that is torn.
Arguments may be left open.
-/

namespace LatexIntegrity

/-- No link in a plain span is split when keys are replaced. -/
def HasNoSplitLink (table : EscapeTable) (text : Text) : Prop :=
  ∀ place ∈ plainPlaces text, place.splitsLink table = false

/-- No formula is inserted in a plain span where its braces complete a command. -/
def HasNoTornFormula (table : EscapeTable) (text : Text) : Prop :=
  ∀ place ∈ plainPlaces text, place.tearsFormula table = false

/-- What stands in the cells of each table of a text. -/
def tableCells (text : Text) : List Text :=
  ((shieldedRegions text).filter Region.isTable).map fun table =>
    Tabular.cells table.name table.body

instance (table : EscapeTable) (text : Text) : Decidable (HasNoSplitLink table text) :=
  inferInstanceAs (Decidable (∀ place ∈ plainPlaces text, _))

instance (table : EscapeTable) (text : Text) : Decidable (HasNoTornFormula table text) :=
  inferInstanceAs (Decidable (∀ place ∈ plainPlaces text, _))

namespace EscapeTables

variable {tables : EscapeTables} {text : Text}

theorem shielded_shielded (hknown : Tabular.CellsAreKnown tables) {table : Region}
    (hregion : table ∈ shieldedRegions text) (hkind : table.isTable = true)
    (hagain : tables.cellEscaper.output
        (tables.cellEscaper.output (Tabular.cells table.name table.body)) =
      tables.cellEscaper.output (Tabular.cells table.name table.body)) :
    Tabular.sanitize tables table.name (Tabular.sanitize tables table.name table.body) =
      Tabular.sanitize tables table.name table.body := by
  rw [shieldedRegions_eq] at hregion
  obtain ⟨context, rest, hfound⟩ := exists_construct_of_mem_shieldedFrom hregion
  obtain ⟨kind, name, body⟩ := table
  obtain rfl : kind = .environment := Region.kind_of_isTable hkind
  obtain ⟨hshielded, inside, hbody⟩ := exists_wrap_of_construct?_append hfound
  obtain rfl : body = Environment.wrap name inside := hbody
  exact Tabular.sanitize_sanitize_wrap hknown
    (Recognizer.isName_of_isShieldedEnvironment hshielded) hagain

theorem proseEscaper_copiesOthers (tables : EscapeTables) : tables.proseEscaper.CopiesOthers := by
  intro region hkind
  refine proseEscaper_of_not_table ?_
  rw [← Bool.not_eq_true]
  exact fun htable => hkind (Region.kind_of_isTable htable)

theorem cells_output_output (hcells : tables.cells.ClosesBraces)
    (hsettled : ∀ place ∈ plainPlaces text, place.IsSettled tables.cells) :
    tables.cellEscaper.output (tables.cellEscaper.output text) =
      tables.cellEscaper.output text :=
  Escaper.output_output hcells (Tabular.cellEscaper_preservesRegions tables) (fun _ _ => rfl)
    hsettled fun _ _ => rfl

theorem prose_output_output (hprose : tables.prose.ClosesBraces)
    (hknown : Tabular.CellsAreKnown tables)
    (hsettled : ∀ place ∈ plainPlaces text, place.IsSettled tables.prose)
    (hagain : ∀ cells ∈ tableCells text,
      tables.cellEscaper.output (tables.cellEscaper.output cells) =
        tables.cellEscaper.output cells) :
    tables.proseEscaper.output (tables.proseEscaper.output text) =
      tables.proseEscaper.output text := by
  refine Escaper.output_output hprose (proseEscaper_preservesRegions hknown)
    (proseEscaper_copiesOthers tables) hsettled fun region hregion => ?_
  cases htable : region.isTable with
  | false =>
      rw [proseEscaper_of_not_table htable]
      exact proseEscaper_of_not_table htable
  | true =>
      have hsanitized : Region.isTable ⟨region.kind, region.name,
          tables.proseEscaper.shielded region⟩ = true := htable
      rw [proseEscaper_table hsanitized, proseEscaper_table htable]
      exact shielded_shielded hknown hregion htable
        (hagain _ (List.mem_map_of_mem (List.mem_filter.mpr ⟨hregion, htable⟩)))

theorem normalizeTypography_output (htables : tables.AreKnown)
    (h : tables.prose.DeletesSafely (normalizeTypography tables.typography text)) :
    normalizeTypography tables.typography (tables.proseEscaper.output
        (tables.prose.stripped (normalizeTypography tables.typography text))) =
      tables.proseEscaper.output
        (tables.prose.stripped (normalizeTypography tables.typography text)) := by
  have hstrips := strips htables h
  have hspares := hstrips.spares htables.typographyKeys h.joins
    (spares_normalizeTypography htables.typography text)
  have hrewrites := @Escaper.rewrites_outputFrom tables.proseEscaper htables.prose.toIsInert
    (proseEscaper_preservesRegions htables.cells) (.start []) _ .initial (.start [])
    (hstrips.isDeleted_eq_false htables.prose.staysInside htables.proseKeys)
  exact normalizeTypography_of_spares (hrewrites.spares htables.typography hspares)

theorem isSettled_of_mem_plainPlaces (htables : tables.AreKnown)
    (h : tables.prose.DeletesSafely text) (hdollar : HasNoStrayDollar text)
    (hlink : HasNoSplitLink tables.prose (tables.prose.stripped text))
    (hformula : HasNoTornFormula tables.prose (tables.prose.stripped text)) :
    ∀ place ∈ plainPlaces (tables.prose.stripped text), place.IsSettled tables.prose := by
  have hstrips := strips htables h
  rw [HasNoStrayDollar, plainPlaces_eq] at hdollar
  intro place hplace
  have hplace' := hplace
  rw [plainPlaces_eq] at hplace'
  exact ⟨hstrips.dollarsAreEscaped htables.prose.toIsInert hdollar place hplace',
    hstrips.isDeleted_eq_false htables.prose.staysInside htables.proseKeys place hplace',
    hlink place hplace, hformula place hplace⟩

/-- A sanitized text is sanitized already. -/
theorem sanitize_sanitize (htables : tables.AreKnown) (hprose : tables.prose.ClosesBraces)
    (h : tables.prose.DeletesSafely (normalizeTypography tables.typography text))
    (hsettled : ∀ place ∈ plainPlaces
      (tables.prose.stripped (normalizeTypography tables.typography text)),
        place.IsSettled tables.prose)
    (hagain : ∀ cells ∈ tableCells (normalizeTypography tables.typography text),
      tables.cellEscaper.output (tables.cellEscaper.output cells) =
        tables.cellEscaper.output cells) :
    sanitize tables .full (sanitize tables .full text) = sanitize tables .full text := by
  rw [sanitize_eq_output htables rfl h, sanitize_full_eq_output htables.prose.staysInside,
    normalizeTypography_output htables h]
  refine prose_output_output hprose htables.cells hsettled ?_
  rwa [tableCells, shieldedRegions_eq,
    (strips htables h).shieldedFrom_eq htables.prose.staysInside, ← shieldedRegions_eq]

/-! ## The standard tables -/

theorem closesBraces_standardProse : standardProse.ClosesBraces where
  toIsKnown := isKnown_standardProse
  guarded := by decide
  formula := by decide

theorem closesBraces_standardCells : standardCells.ClosesBraces where
  toIsKnown := isKnown_standardCells
  guarded := by decide
  formula := by decide

theorem isSettled_standardCells (hdollar : HasNoStrayDollar text)
    (hlink : HasNoSplitLink standardCells text) :
    ∀ place ∈ plainPlaces text, place.IsSettled standardCells := fun place hplace =>
  ⟨hdollar place hplace, Tabular.isDeleted_eq_false (by decide) place, hlink place hplace,
    BytePlace.tearsFormula_eq_false (by decide) place⟩

end EscapeTables

open EscapeTables (standardTypography standardProse standardCells)

/--
With the standard tables, a sanitized text is sanitized already if neither its plain spans nor
the cells of its tables hold a stray dollar sign or a link that is split, no formula is torn, and
no deleted space keeps anything apart.
-/
theorem sanitize_idempotent (text : Text)
    (hdollar : HasNoStrayDollar (normalizeTypography standardTypography text))
    (hcells : ∀ cells ∈ tableCells (normalizeTypography standardTypography text),
      HasNoStrayDollar cells ∧ HasNoSplitLink standardCells cells)
    (hdeleted : standardProse.DeletesSafely (normalizeTypography standardTypography text))
    (hlink : HasNoSplitLink standardProse
      (standardProse.stripped (normalizeTypography standardTypography text)))
    (hformula : HasNoTornFormula standardProse
      (standardProse.stripped (normalizeTypography standardTypography text))) :
    sanitize .standard .full (sanitize .standard .full text) = sanitize .standard .full text :=
  EscapeTables.sanitize_sanitize EscapeTables.standard_areKnown
    EscapeTables.closesBraces_standardProse hdeleted
    (EscapeTables.isSettled_of_mem_plainPlaces EscapeTables.standard_areKnown hdeleted hdollar
      hlink hformula)
    fun cells hmem => EscapeTables.cells_output_output EscapeTables.closesBraces_standardCells
      (EscapeTables.isSettled_standardCells (hcells cells hmem).1 (hcells cells hmem).2)

/-- The link and the address are left open, and a bar closes the address. -/
theorem sanitize_idempotent_mixed :
    let text : Text :=
      "½ $x$\u200b\\href\x7ba_b\x7d\\begin\x7btabular\x7d\x7bc\x7d\\url\x7bv|w\\end\x7btabular\x7d"
    sanitize .standard .full (sanitize .standard .full text) = sanitize .standard .full text :=
  sanitize_idempotent _ (by decide +kernel) (by decide +kernel) (by decide +kernel)
    (by decide +kernel) (by decide +kernel)

/-- Behind the link that a bar splits, a comment is read as the second argument. -/
example : ∃ text, HasNoStrayDollar text ∧
    sanitize .standard .full (sanitize .standard .full text) ≠ sanitize .standard .full text :=
  ⟨"\\href\x7ba|\x7b%\x7d<\n", by decide +kernel⟩

/-- The braces of the formula for a degree sign close an address that is left open. -/
example : ∃ text, HasNoStrayDollar text ∧ HasNoSplitLink standardProse text ∧
    sanitize .standard .full (sanitize .standard .full text) ≠ sanitize .standard .full text :=
  ⟨"\\url\x7b5° <", by decide +kernel⟩

end LatexIntegrity
