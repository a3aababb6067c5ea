import LatexIntegrity.Log.Classify

/-!
# The errors of a log, line by line

An open error takes the lines behind the one that reports it until it has enough of
them or the log ends.  Every error takes the same number of lines, so the error in
front of the queue is complete first, and what the scan answers is found by looking at
each error line and the lines behind it alone.
-/

namespace LatexIntegrity.Log

/-! ## Errors by the lines that report them -/

def isErrorLine (line : Text) : Bool := Text.hasAt line 0 "! "

def errorOf (line : Text) (context : List Text) : Issue :=
  { kind := messageKind (line.drop 2)
    severity := .error
    message := line.drop 2
    line := context.findSome? lineMarker?
    context := context }

def errorsOf : List Text → List Issue
  | [] => []
  | line :: rest =>
      if isErrorLine line then errorOf line (rest.take contextLines) :: errorsOf rest
      else errorsOf rest

def errorNumbers (lines : List Text) : List Nat :=
  (List.range lines.length).filter fun number => (lines[number]?).any isErrorLine

def errorAt (lines : List Text) (number : Nat) : Issue :=
  errorOf (lines.getD number [])
    ((lines.drop (number + 1)).take (min contextLines (lines.length - 1 - number)))

theorem take_min_length_drop (lines : List Text) (number count : Nat) :
    (lines.drop (number + 1)).take (min count (lines.length - 1 - number)) =
      (lines.drop (number + 1)).take count := by
  have hlength : (lines.drop (number + 1)).length = lines.length - 1 - number := by
    simp
    omega
  rw [← hlength, List.take_eq_take_iff]
  omega

theorem errorsOf_eq_map (lines : List Text) :
    errorsOf lines = (errorNumbers lines).map (errorAt lines) := by
  induction lines with
  | nil => rfl
  | cons line rest ih =>
      have hnumbers : errorNumbers (line :: rest) =
          (if isErrorLine line then [0] else []) ++ (errorNumbers rest).map (· + 1) := by
        rw [errorNumbers, List.length_cons, List.range_succ_eq_map, List.filter_cons,
          List.filter_map]
        cases hline : isErrorLine line <;> simp [errorNumbers, Function.comp_def, hline]
      have hbehind : ∀ number, errorAt (line :: rest) (number + 1) = errorAt rest number := by
        intro number
        simp only [errorAt, take_min_length_drop]
        simp
      have hfirst : errorAt (line :: rest) 0 = errorOf line (rest.take contextLines) := by
        simp only [errorAt, take_min_length_drop]
        simp
      rw [errorsOf, ih, hnumbers]
      split <;> simp [hfirst, hbehind]

/-! ## Open errors -/

namespace OpenError

/-- The issue of an open error once it has all the lines that it still takes. -/
def complete (error : OpenError) (lines : List Text) : Issue :=
  { error.issue with
    context := error.issue.context ++ lines.take error.remaining
    line := error.issue.line.or ((lines.take error.remaining).findSome? lineMarker?) }

theorem complete_nil (error : OpenError) : error.complete [] = error.issue := by
  simp [complete]

theorem complete_of_remaining_eq_zero {error : OpenError} (h : error.remaining = 0)
    (lines : List Text) : error.complete lines = error.issue := by
  simp [complete, h]

theorem complete_explain {error : OpenError} (h : 0 < error.remaining) (line : Text)
    (rest : List Text) : (error.explain line).complete rest = error.complete (line :: rest) := by
  obtain ⟨remaining, hremaining⟩ := Nat.exists_eq_succ_of_ne_zero (Nat.ne_of_gt h)
  simp only [complete, explain, hremaining, Nat.succ_sub_one, List.take_succ_cons]
  cases hissue : error.issue.line <;> cases hmarker : lineMarker? line <;>
    simp [List.findSome?, hmarker]

theorem ofLine?_eq (line : Text) :
    ofLine? line = if isErrorLine line then some ⟨errorOf line [], contextLines⟩ else none := rfl

theorem complete_errorOf (line : Text) (rest : List Text) :
    OpenError.complete ⟨errorOf line [], contextLines⟩ rest =
      errorOf line (rest.take contextLines) := by
  simp [complete, errorOf]

end OpenError

/-! ## The scan -/

namespace ErrorScan

/-- The open errors wait in the order in which they will be complete. -/
structure IsOrdered (scan : ErrorScan) : Prop where
  waiting : ∀ error ∈ scan.pending, 0 < error.remaining ∧ error.remaining ≤ contextLines
  sorted : scan.pending.Pairwise (·.remaining ≤ ·.remaining)

variable {scan : ErrorScan}

theorem pending_feed (scan : ErrorScan) (line : Text) :
    (scan.feed line).pending =
      (scan.pending.map (·.explain line)).dropWhile (·.remaining == 0) ++
        (OpenError.ofLine? line).toList := rfl

theorem pos_of_mem_dropWhile {errors : List OpenError}
    (h : errors.Pairwise (·.remaining ≤ ·.remaining)) {error : OpenError}
    (hmem : error ∈ errors.dropWhile (·.remaining == 0)) : 0 < error.remaining := by
  induction errors with
  | nil => simp at hmem
  | cons first rest ih =>
      obtain ⟨hfirst, hrest⟩ := List.pairwise_cons.mp h
      rw [List.dropWhile_cons] at hmem
      split at hmem
      · exact ih hrest hmem
      · next hopen =>
          have hpos : 0 < first.remaining := Nat.pos_of_ne_zero (by simpa using hopen)
          rcases List.mem_cons.mp hmem with rfl | hmem
          · exact hpos
          · exact Nat.lt_of_lt_of_le hpos (hfirst error hmem)

theorem IsOrdered.feed (h : scan.IsOrdered) (line : Text) : (scan.feed line).IsOrdered := by
  have hexplained : (scan.pending.map (·.explain line)).Pairwise
      (·.remaining ≤ ·.remaining) := by
    refine List.pairwise_map.mpr (h.sorted.imp ?_)
    intro first second hle
    exact Nat.sub_le_sub_right hle 1
  have hbound : ∀ error ∈ scan.pending.map (·.explain line),
      error.remaining ≤ contextLines := by
    intro error herror
    obtain ⟨before, hbefore, rfl⟩ := List.mem_map.mp herror
    exact Nat.le_trans (Nat.sub_le _ _) (h.waiting before hbefore).2
  have hopened : ∀ error ∈ (OpenError.ofLine? line).toList,
      error.remaining = contextLines := by
    intro error herror
    rw [Option.mem_toList, OpenError.ofLine?_eq] at herror
    split at herror
    · rw [← Option.some.inj herror]
    · cases herror
  constructor
  · intro error herror
    rw [pending_feed] at herror
    rcases List.mem_append.mp herror with hwaits | hnew
    · exact ⟨pos_of_mem_dropWhile hexplained hwaits,
        hbound error ((List.dropWhile_sublist _).subset hwaits)⟩
    · rw [hopened error hnew]
      decide
  · rw [pending_feed, List.pairwise_append]
    refine ⟨hexplained.sublist (List.dropWhile_sublist _), ?_, ?_⟩
    · cases OpenError.ofLine? line <;> simp
    · intro error herror new hnew
      rw [hopened new hnew]
      exact hbound error ((List.dropWhile_sublist _).subset herror)

/-- What a scan will answer when it is given the rest of the lines. -/
def outcome (scan : ErrorScan) (lines : List Text) : List Issue :=
  scan.closed ++ scan.pending.map (·.complete lines) ++ errorsOf lines

theorem outcome_feed (h : scan.IsOrdered) (line : Text) (rest : List Text) :
    (scan.feed line).outcome rest = scan.outcome (line :: rest) := by
  have hcomplete : scan.pending.map (·.complete (line :: rest)) =
      (scan.pending.map (·.explain line)).map (·.complete rest) := by
    rw [List.map_map]
    refine List.map_congr_left fun error herror => ?_
    exact (OpenError.complete_explain (h.waiting error herror).1 line rest).symm
  have hclosed : ∀ errors : List OpenError,
      (errors.takeWhile (·.remaining == 0)).map (·.issue) ++
          (errors.dropWhile (·.remaining == 0)).map (·.complete rest) =
        errors.map (·.complete rest) := by
    intro errors
    have hsame : (errors.takeWhile (·.remaining == 0)).map (·.issue) =
        (errors.takeWhile (·.remaining == 0)).map (·.complete rest) := by
      refine List.map_congr_left fun error herror => ?_
      have hdone := List.all_eq_true.mp List.all_takeWhile error herror
      exact (OpenError.complete_of_remaining_eq_zero (by simpa using hdone) rest).symm
    rw [hsame, ← List.map_append, List.takeWhile_append_dropWhile]
  rw [outcome, outcome, hcomplete, ← hclosed (scan.pending.map (·.explain line)), errorsOf]
  simp only [feed, OpenError.ofLine?_eq]
  split <;> simp [OpenError.complete_errorOf]

theorem finish_foldl_feed (h : scan.IsOrdered) (lines : List Text) :
    (lines.foldl feed scan).finish = scan.outcome lines := by
  induction lines generalizing scan with
  | nil => simp [finish, outcome, errorsOf, OpenError.complete_nil]
  | cons line rest ih => rw [List.foldl_cons, ih (h.feed line), outcome_feed h]

theorem isOrdered_start : start.IsOrdered := ⟨nofun, .nil⟩

end ErrorScan

/-- The scan finds the error of each line that reports one, in the order of the log. -/
theorem errors_eq (lines : List Text) :
    errors lines = (errorNumbers lines).map (errorAt lines) := by
  rw [errors, ErrorScan.finish_foldl_feed ErrorScan.isOrdered_start, ← errorsOf_eq_map]
  rfl

end LatexIntegrity.Log
