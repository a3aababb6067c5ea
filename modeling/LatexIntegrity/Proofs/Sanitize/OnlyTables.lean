import LatexIntegrity.Proofs.Sanitize.Idempotence

/-!
# Sanitizing only tables twice

A text whose tables are sanitized is sanitized already, provided that nothing in it is a
stray dollar sign and no link in a cell is split.  The text around the tables stays, and
what is plain in it stays plain.
-/

namespace LatexIntegrity

open EscapePass (State)

def EscapeTable.empty : EscapeTable := ⟨[]⟩

namespace EscapeTable

theorem match?_empty (text : Text) : empty.match? text = none := by
  rw [match?]
  split <;> rfl

theorem closesBraces_empty : empty.ClosesBraces where
  staysInside := nofun
  ordinary := nofun
  inert := nofun
  known := nofun
  names := nofun
  guarded := nofun
  formula := nofun

theorem isDeleted_empty (place : BytePlace) : place.isDeleted empty = false :=
  Tabular.isDeleted_eq_false (fun _ hentry => absurd hentry List.not_mem_nil) place

end EscapeTable

open EscapeTable (empty)

theorem EscapePass.run_empty (next : Option UInt8) {state : State}
    (hinserted : state.inserted = false) (text : Text) :
    run empty true next state text = text := by
  induction text generalizing state with
  | nil => rw [run, State.gap_of_copied hinserted]
  | cons b rest ih =>
      rw [run, EscapeTable.match?_empty, State.gap_of_copied hinserted, List.nil_append, ih rfl]

namespace EscapeTables

variable {tables : EscapeTables} {state : State} {written : LeftContext} {text : Text}

def onlyCells (tables : EscapeTables) : EscapeTables := { tables with prose := empty }

theorem sanitize_onlyTables_eq_output (tables : EscapeTables) (text : Text) :
    sanitize tables .onlyTables text = tables.onlyCells.proseEscaper.output text := by
  refine Escaper.flatMap_segment_eq_output EscapeTable.closesBraces_empty.staysInside _ ?_
  intro before after region hwhole
  obtain rfl : before ++ (region.body ++ after) = text := hwhole
  have hread := Span.read_append before region.body after region.kind region.name
  have htable : Span.isEnvironment Environment.isTabular ⟨before.length,
      before.length + region.body.length, region.kind, region.name⟩ = region.isTable := rfl
  rw [SanitizeScope.escapeSpan, htable, Escaper.spanOutput]
  simp only [SanitizeScope.prepare, hread]
  split
  · next htable =>
      rw [if_pos (Region.isShielded_of_isTable htable), proseEscaper_table htable]
      rfl
  · next htable =>
      rw [Bool.not_eq_true] at htable
      rw [proseEscaper_of_not_table htable]
      split
      · rfl
      · exact (EscapePass.run_empty _ rfl _).symm

/-! ## The whole text -/

theorem cellsAreKnown_onlyCells (hcells : Tabular.CellsAreKnown tables) :
    Tabular.CellsAreKnown tables.onlyCells :=
  ⟨hcells.toIsKnown, hcells.deletesNothing⟩

theorem isSettled_empty (hdollar : HasNoStrayDollar text) :
    ∀ place ∈ plainPlaces text, place.IsSettled empty := fun place hplace =>
  ⟨hdollar place hplace, EscapeTable.isDeleted_empty place,
    by simp [BytePlace.splitsLink, EscapeTable.splits, empty],
    BytePlace.tearsFormula_eq_false (fun _ hentry => absurd hentry List.not_mem_nil) place⟩

theorem sanitize_sanitize_onlyTables (hcells : Tabular.CellsAreKnown tables)
    (hdollar : HasNoStrayDollar text)
    (hagain : ∀ cells ∈ tableCells text,
      tables.cellEscaper.output (tables.cellEscaper.output cells) =
        tables.cellEscaper.output cells) :
    sanitize tables .onlyTables (sanitize tables .onlyTables text) =
      sanitize tables .onlyTables text := by
  rw [sanitize_onlyTables_eq_output, sanitize_onlyTables_eq_output]
  exact @prose_output_output tables.onlyCells _ EscapeTable.closesBraces_empty
    (cellsAreKnown_onlyCells hcells) (isSettled_empty hdollar) hagain

end EscapeTables

open EscapeTables (standardCells)

/--
With the standard tables, a text whose tables are sanitized is sanitized already if neither
its plain spans nor those of the cells of its tables hold a stray dollar sign, and no link in
these cells is split.
-/
theorem sanitizeTables_idempotent (text : Text) (hdollar : HasNoStrayDollar text)
    (hcells : ∀ cells ∈ tableCells text,
      HasNoStrayDollar cells ∧ HasNoSplitLink standardCells cells) :
    sanitize .standard .onlyTables (sanitize .standard .onlyTables text) =
      sanitize .standard .onlyTables text := by
  refine EscapeTables.sanitize_sanitize_onlyTables EscapeTables.standard_areKnown.cells hdollar
    fun cells hmem => ?_
  obtain ⟨hstray, hlink⟩ := hcells cells hmem
  exact EscapeTables.cells_output_output EscapeTables.closesBraces_standardCells
    (EscapeTables.isSettled_standardCells hstray hlink)

/-- The braces of the bars close an address and end a definition that the cells leave open. -/
theorem sanitizeTables_idempotent_open :
    sanitize .standard .onlyTables (sanitize .standard .onlyTables
        "\\begin\x7btabular\x7d\x7bc\x7d\\url\x7ba|b<c\\def\\x|=\\end\x7btabular\x7d") =
      sanitize .standard .onlyTables
        "\\begin\x7btabular\x7d\x7bc\x7d\\url\x7ba|b<c\\def\\x|=\\end\x7btabular\x7d" :=
  sanitizeTables_idempotent _ (by decide +kernel) (by decide +kernel)

/-- Behind the link that a bar splits, a comment is read as the second argument. -/
example : ∃ text, HasNoStrayDollar text ∧ (∀ cells ∈ tableCells text, HasNoStrayDollar cells) ∧
    sanitize .standard .onlyTables (sanitize .standard .onlyTables text) ≠
      sanitize .standard .onlyTables text :=
  ⟨"\\begin\x7btabular\x7d\x7bc\x7d\\href\x7b|\x7b%\x7d<\n\\end\x7btabular\x7d", by decide +kernel⟩

end LatexIntegrity
