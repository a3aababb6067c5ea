import LatexIntegrity.Proofs.Sanitize.Header
import LatexIntegrity.Proofs.Sanitize.Simulation

/-!
# Sanitizing a table

The opener, the arguments and the closer of a table stay, and its cells are rewritten.
The table is therefore one again, and sanitizing it again finds the same cells.
-/

namespace LatexIntegrity

namespace Tabular

open Environment (wrap)

def braces (name : Text) : Nat := if name == "tabular*" then 2 else 1

def arguments (name inside : Text) : Nat :=
  argumentsLength (braces name) (inside ++ (DelimiterToken.mk .closing name).source)

/-- The cells of a table: what stands between its header and its closer. -/
def cells (name source : Text) : Text :=
  source.slice (headerLength name source) (source.length - (Environment.closer name).length)

variable {name inside : Text} {tables : EscapeTables}

theorem headerLength_wrap (hname : Environment.IsName name) :
    headerLength name (wrap name inside) =
      (DelimiterToken.mk .opening name).source.length + arguments name inside := by
  have hread : DelimiterToken.read? (wrap name inside) = some ⟨.opening, name⟩ :=
    DelimiterToken.read?_eq_some_iff.mpr ⟨hname, List.prefix_append _ _⟩
  have hopener : delimiterAt? (wrap name inside) 0 = some ⟨⟨.opening, name⟩, 0⟩ := by
    rw [delimiterAt?, Delimiter.read?, List.drop_zero, hread]
    rfl
  have hstop : Delimiter.stop ⟨⟨.opening, name⟩, 0⟩ =
      (DelimiterToken.mk .opening name).source.length := Nat.zero_add _
  rw [headerLength, hopener]
  simp only [hstop]
  rw [wrap, List.drop_left]
  rfl

theorem cells_wrap (hname : Environment.IsName name) :
    cells name (wrap name inside) = inside.drop (arguments name inside) := by
  rw [cells, headerLength_wrap hname, Environment.closer_eq_source, Text.slice, wrap,
    List.drop_length_add_append]
  simp only [List.length_append]
  by_cases hfit : arguments name inside ≤ inside.length
  · rw [List.drop_append_of_le_length hfit]
    refine List.take_left' ?_
    rw [List.length_drop]
    omega
  · have hnil : inside.drop (arguments name inside) = [] :=
      List.drop_eq_nil_of_le (Nat.le_of_not_le hfit)
    rw [hnil]
    refine List.eq_nil_of_length_eq_zero ?_
    rw [List.length_take]
    omega

theorem sanitize_wrap (hname : Environment.IsName name) (htable : tables.cells.StaysInside) :
    sanitize tables name (wrap name inside) =
      wrap name (inside.take (arguments name inside) ++
        tables.cellEscaper.output (inside.drop (arguments name inside))) := by
  have hcells : cells name (wrap name inside) = _ := cells_wrap hname
  have hlength : (wrap name inside).length =
      (DelimiterToken.mk .opening name).source.length +
        (inside.length + (DelimiterToken.mk .closing name).source.length) := by
    rw [wrap, List.length_append, List.length_append]
  rw [cells, Environment.closer_eq_source] at hcells
  rw [sanitize]
  simp only [Environment.closer_eq_source, hcells, EscapeTables.flatMap_cell_eq_output htable]
  -- Arguments that reach over the closer leave no cells.
  split
  · next hguard =>
      have hshort : inside.length < arguments name inside := by
        simp only [hlength, headerLength_wrap hname, Bool.or_eq_true, decide_eq_true_eq] at hguard
        omega
      rw [List.take_of_length_le (Nat.le_of_lt hshort),
        List.drop_eq_nil_of_le (Nat.le_of_lt hshort), Escaper.output, Escaper.outputFrom_nil,
        List.append_nil]
  · next hguard =>
      have hfit : arguments name inside ≤ inside.length := by
        simp only [hlength, headerLength_wrap hname, Bool.or_eq_true, decide_eq_true_eq] at hguard
        omega
      have hheader : (wrap name inside).take (headerLength name (wrap name inside)) =
          (DelimiterToken.mk .opening name).source ++ inside.take (arguments name inside) := by
        rw [headerLength_wrap hname, wrap, List.take_length_add_append,
          List.take_append_of_le_length hfit]
      have hcloser : (wrap name inside).drop ((wrap name inside).length -
          (DelimiterToken.mk .closing name).source.length) =
            (DelimiterToken.mk .closing name).source := by
        rw [hlength, wrap, ← List.append_assoc]
        refine List.drop_left' ?_
        rw [List.length_append]
        omega
      rw [hheader, hcloser]
      simp [wrap]

/-! ## The cells are rewritten -/

def sanitizedInside (tables : EscapeTables) (name inside : Text) : Text :=
  inside.take (arguments name inside) ++
    tables.cellEscaper.output (inside.drop (arguments name inside))

theorem cellEscaper_preservesRegions (tables : EscapeTables) :
    tables.cellEscaper.PreservesRegions :=
  fun _ => .same rfl

theorem isDeleted_eq_false {table : EscapeTable}
    (htable : ∀ entry ∈ table.entries, entry.replacement ≠ []) (place : BytePlace) :
    place.isDeleted table = false := by
  rw [BytePlace.isDeleted]
  cases hmatch : table.match? place.rest with
  | none => simp
  | some entry => simp [htable entry (EscapeTable.match?_eq_some hmatch).1]

structure CellsAreKnown (tables : EscapeTables) : Prop extends tables.cells.IsKnown where
  deletesNothing : ∀ entry ∈ tables.cells.entries, entry.replacement ≠ []

theorem sanitizedInside_of_lt (tables : EscapeTables)
    (h : inside.length < arguments name inside) : sanitizedInside tables name inside = inside := by
  rw [sanitizedInside, List.take_of_length_le (Nat.le_of_lt h),
    List.drop_eq_nil_of_le (Nat.le_of_lt h), Escaper.output, Escaper.outputFrom_nil,
    List.append_nil]

variable (hcells : CellsAreKnown tables)

include hcells

theorem rewrites_cells (text : Text) :
    Rewrites ⟨false, false⟩ text (tables.cellEscaper.output text) :=
  Escaper.rewrites_outputFrom hcells.toIsInert (cellEscaper_preservesRegions tables) _ _ _
    (.start []) fun place _ => isDeleted_eq_false hcells.deletesNothing place

theorem rewrites_inside (name inside : Text) :
    Rewrites ⟨false, false⟩ inside (sanitizedInside tables name inside) := by
  by_cases hfit : arguments name inside ≤ inside.length
  · have hread := readsArguments (braces name)
      (inside ++ (DelimiterToken.mk .closing name).source)
    have hcontext := hread.context
    rw [← arguments, List.take_append_of_le_length hfit] at hcontext
    have hrest : Rewrites ((LeftContext.mk false false).pushAll
        (inside.take (arguments name inside))) (inside.drop (arguments name inside))
        (tables.cellEscaper.output (inside.drop (arguments name inside))) := by
      rw [hcontext]
      exact rewrites_cells hcells _
    have hcopied := hrest.copies
    rwa [List.take_append_drop] at hcopied
  · rw [sanitizedInside_of_lt tables (Nat.lt_of_not_le hfit)]
    exact .refl _ _

theorem arguments_sanitizedInside (name inside : Text) :
    arguments name (sanitizedInside tables name inside) = arguments name inside := by
  by_cases hfit : arguments name inside ≤ inside.length
  · obtain ⟨left, hzero, hagain⟩ := (readsArguments (braces name)
      (inside ++ (DelimiterToken.mk .closing name).source)).again
    rw [← arguments, List.drop_append_of_le_length hfit] at hzero
    have hrest := (rewrites_cells hcells (inside.drop (arguments name inside))).append
      (.refl _ (DelimiterToken.mk .closing name).source)
    have hread := hagain _ (hrest.argumentsLength_eq_zero hzero)
    rwa [← arguments, List.take_append_of_le_length hfit, ← List.append_assoc] at hread
  · rw [sanitizedInside_of_lt tables (Nat.lt_of_not_le hfit)]

/-- A table is sanitized once and for all if its cells are escaped once and for all. -/
theorem sanitize_sanitize_wrap (hname : Environment.IsName name)
    (hagain : tables.cellEscaper.output
        (tables.cellEscaper.output (cells name (wrap name inside))) =
      tables.cellEscaper.output (cells name (wrap name inside))) :
    sanitize tables name (sanitize tables name (wrap name inside)) =
      sanitize tables name (wrap name inside) := by
  rw [cells_wrap hname] at hagain
  rw [sanitize_wrap hname hcells.staysInside, ← sanitizedInside,
    sanitize_wrap hname hcells.staysInside, arguments_sanitizedInside hcells]
  refine congrArg (wrap name) ?_
  by_cases hfit : arguments name inside ≤ inside.length
  · have htake : (inside.take (arguments name inside)).length = arguments name inside :=
      List.length_take_of_le hfit
    rw [sanitizedInside, List.take_left' htake, List.drop_left' htake, hagain]
  · have hlt := Nat.lt_of_not_le hfit
    rw [sanitizedInside_of_lt tables hlt]
    exact sanitizedInside_of_lt tables hlt

end Tabular

/-! ## The regions of a document -/

namespace EscapeTables

variable {tables : EscapeTables} {name : Text}

theorem proseEscaper_of_not_table {region : Region} (h : region.isTable = false) :
    tables.proseEscaper.shielded region = region.body := by
  simp only [proseEscaper, h, Bool.false_eq_true, if_false]

theorem proseEscaper_table {region : Region} (h : region.isTable = true) :
    tables.proseEscaper.shielded region = Tabular.sanitize tables region.name region.body := by
  simp only [proseEscaper, h, if_true]

theorem proseEscaper_preservesRegions (hcells : Tabular.CellsAreKnown tables) :
    tables.proseEscaper.PreservesRegions := by
  rintro context text kind ⟨length, name⟩ hfound
  cases htable : Region.isTable ⟨kind, name, text.take length⟩ with
  | false => exact .same (proseEscaper_of_not_table htable)
  | true =>
      obtain rfl : kind = .environment := Region.kind_of_isTable htable
      obtain ⟨hshielded, inside, rest, rfl, rfl, hcloser⟩ := exists_wrap_of_construct? hfound
      have hname := Recognizer.isName_of_isShieldedEnvironment hshielded
      have hrewrites := Tabular.rewrites_inside hcells name inside
      rw [List.take_left] at htable ⊢
      have hsanitized : tables.proseEscaper.shielded
          ⟨.environment, name, Environment.wrap name inside⟩ =
            Environment.wrap name (Tabular.sanitizedInside tables name inside) := by
        rw [proseEscaper_table htable, Tabular.sanitize_wrap hname hcells.staysInside]
        rfl
      refine .inside name rfl hsanitized hrewrites fun context rest' hfree => ?_
      rw [hsanitized]
      exact construct?_wrap hfree hshielded (hrewrites.unescapedDistance?_append
        (.closing hname) rfl hcloser rest')

end EscapeTables

end LatexIntegrity
