import LatexIntegrity.Command.Diagnose
import LatexIntegrity.Proofs.Log.Errors
import LatexIntegrity.Proofs.Source.Paths
import LatexIntegrity.Proofs.Text.Lines
import LatexIntegrity.Source.FileTree

/-!
# A log read line by line

Each line of a log reports at most one error and at most one warning, whatever the other
lines are.  The counts that `diagnose` prints, and its exit status, are therefore counts
of lines.
-/

namespace LatexIntegrity

namespace Log

/-! ## Warnings -/

def isUndefinedCitation (line : Text) : Bool :=
  Text.contains "Citation" line && Text.contains "undefined" line

def isUndefinedReference (line : Text) : Bool :=
  Text.contains "Reference" line && Text.contains "undefined" line

def isBadBox (line : Text) : Bool := badBoxPhrases.any (Text.contains · line)

def citation? (line : Text) : Option Issue :=
  if isUndefinedCitation line then some (undefinedName .undefinedCitation line) else none

def reference? (line : Text) : Option Issue :=
  if isUndefinedReference line then some (undefinedName .undefinedReference line) else none

def badBox? (line : Text) : Option Issue := if isBadBox line then some (badBox line) else none

theorem warning?_eq (line : Text) :
    warning? line = (citation? line).or ((reference? line).or (badBox? line)) := by
  have hunfold : warning? line =
      if isUndefinedCitation line then some (undefinedName .undefinedCitation line)
      else if isUndefinedReference line then some (undefinedName .undefinedReference line)
      else badBox? line := rfl
  rw [hunfold, citation?, reference?]
  cases isUndefinedCitation line <;> cases isUndefinedReference line <;> simp

/-! ## Issues by severity -/

def isUndefinedName (line : Text) : Bool := isUndefinedCitation line || isUndefinedReference line

theorem severity_warning? (line : Text) :
    (warning? line).map (·.severity) =
      if isUndefinedName line then some .warning
      else if isBadBox line then some .note else none := by
  rw [warning?_eq, citation?, reference?, badBox?, isUndefinedName]
  cases isUndefinedCitation line <;> cases isUndefinedReference line <;>
    cases isBadBox line <;> rfl

theorem countP_errors (severity : Severity) (lines : List Text) :
    (errors lines).countP (·.severity == severity) =
      if severity = .error then lines.countP isErrorLine else 0 := by
  rw [errors_eq, ← errorsOf_eq_map]
  induction lines with
  | nil => simp [errorsOf]
  | cons line rest ih =>
      have hseverity : (errorOf line (rest.take contextLines)).severity = .error := rfl
      rw [errorsOf]
      split
      · next hline =>
          rw [List.countP_cons, ih, hseverity, List.countP_cons_of_pos hline]
          cases severity <;> simp
      · next hline => rw [ih, List.countP_cons_of_neg hline]

theorem countP_warnings (severity : Severity) (lines : List Text) :
    (lines.filterMap warning?).countP (·.severity == severity) =
      lines.countP fun line => (warning? line).map (·.severity) == some severity := by
  rw [List.countP_filterMap]
  refine List.countP_congr fun line _ => ?_
  cases warning? line <;> simp

theorem countP_classify (severity : Severity) (log : Text) :
    (classify log).countP (·.severity == severity) =
      match severity with
      | .error => (logLines log).countP isErrorLine
      | .warning => (logLines log).countP isUndefinedName
      | .note => (logLines log).countP fun line => isBadBox line && !isUndefinedName line := by
  rw [classify, List.countP_append, countP_errors, countP_warnings]
  simp only [severity_warning?]
  cases severity with
  | error =>
      have hnone : (logLines log).countP (fun line =>
          (if isUndefinedName line then some Severity.warning
            else if isBadBox line then some .note else none) == some .error) = 0 := by
        refine List.countP_eq_zero.mpr fun line _ => ?_
        cases isUndefinedName line <;> cases isBadBox line <;> decide
      rw [hnone]
      rfl
  | warning =>
      rw [if_neg nofun, Nat.zero_add]
      refine List.countP_congr fun line _ => ?_
      cases isUndefinedName line <;> cases isBadBox line <;> decide
  | note =>
      rw [if_neg nofun, Nat.zero_add]
      refine List.countP_congr fun line _ => ?_
      cases isUndefinedName line <;> cases isBadBox line <;> decide

end Log

/-! ## The command -/

namespace Command

theorem count_toDiagnostic (severity : Severity) (file : UInt32) (issues : List Issue) :
    Diagnostic.count severity (issues.map (·.toDiagnostic file none)) =
      issues.countP (·.severity == severity) := by
  rw [Diagnostic.count, List.countP_map]
  rfl

def countsLine (errors warnings notes : Nat) : Text :=
  Decimal.render errors ++ " error(s), " ++ Decimal.render warnings ++ " warning(s)" ++
    (if notes = 0 then [] else ", " ++ Decimal.render notes ++ " note(s)" : Text) ++ "\n"

theorem countsLine_classify (log : Text) (file : UInt32) :
    renderCounts ((Log.classify log).map (·.toDiagnostic file none)) =
      countsLine ((Log.logLines log).countP Log.isErrorLine)
        ((Log.logLines log).countP Log.isUndefinedName)
        ((Log.logLines log).countP fun line => Log.isBadBox line && !Log.isUndefinedName line) := by
  simp only [renderCounts, countsLine, count_toDiagnostic, Log.countP_classify]

theorem anyError_classify (log : Text) (file : UInt32) :
    Diagnostic.anyError ((Log.classify log).map (·.toDiagnostic file none)) =
      (Log.logLines log).any Log.isErrorLine := by
  rw [Diagnostic.anyError, count_toDiagnostic, Log.countP_classify, Bool.eq_iff_iff,
    List.any_eq_true]
  simp

theorem exists_attribution (options : DiagnoseOptions) (path : Text) (log : UInt32) :
    ∃ attributed, attribution options (Registry.empty.add path .log).1 log = .ok attributed := by
  have hlength : (Registry.empty.add path .log).1.files.length = 1 := rfl
  have hroom : ¬Registry.capacity ≤ (Registry.empty.add path .log).1.files.length + 1 := by
    rw [hlength]
    decide
  unfold attribution Registry.register Registry.add?
  split_ifs with hsource hfull
  · exact ⟨_, rfl⟩
  · exact absurd (of_decide_eq_true (Bool.and_eq_true_iff.mp hfull).2) hroom
  · exact ⟨_, rfl⟩

theorem diagnose_eq {disk : Disk Id} {path : Text} {arguments : List Text}
    {options : DiagnoseOptions} {registry : Registry} {log : LoadedText}
    (hlog : (readText disk .empty path .log).run = .ok (registry, log))
    (hoptions : DiagnoseOptions.read {} arguments = .ok options) :
    ∃ registry file, diagnose disk (path :: arguments) = reportLog registry file log.text := by
  have hadd := readText_spec disk .empty path .log
  rw [hlog] at hadd
  obtain ⟨attributed, hattributed⟩ := exists_attribution options path log.file
  rw [hadd.1] at hattributed
  simp only [Id.run] at hlog
  simp only [diagnose, withOptions, hoptions, bind, hlog, diagnoseLog, hattributed]
  exact ⟨_, _, rfl⟩

end Command

/--
A log is classified line by line: first the errors, each with the next lines as its
context, then at most one warning for each line.  On a log that can be read, `diagnose`
prints how many lines there are of each kind, and fails if there is an error.
-/
theorem Log.classify_byLines (log : Text) :
    let lines := (log.splitOn ('\n' : UInt8)).map Text.withoutReturn
    Log.classify log =
        ((List.range lines.length).filter fun number => (lines[number]?).any isErrorLine).map
            (errorAt lines) ++
          lines.filterMap (fun line =>
            (citation? line).or ((reference? line).or (badBox? line))) ∧
      ∀ (disk : Disk Id) (path : Text) (arguments : List Text) (options : Command.DiagnoseOptions)
        (registry : Registry) (loaded : LoadedText),
        (readText disk .empty path .log).run = .ok (registry, loaded) → loaded.text = log →
          Command.DiagnoseOptions.read {} arguments = .ok options →
            (Command.diagnose disk (path :: arguments)).run.status =
                (if lines.any isErrorLine then 1 else 0) ∧
              (Command.diagnose disk (path :: arguments)).run.out =
                Command.countsLine (lines.countP isErrorLine) (lines.countP isUndefinedName)
                  (lines.countP fun line => isBadBox line && !isUndefinedName line) := by
  have hlines : (log.splitOn ('\n' : UInt8)).map Text.withoutReturn = logLines log := by
    rw [logLines, Text.lines, Text.splitAt_eq_splitOn]
  simp only [hlines]
  refine ⟨?_, ?_⟩
  · simp only [classify, errors_eq, ← warning?_eq]
    rfl
  · rintro disk path arguments options registry loaded hloaded rfl hoptions
    obtain ⟨registry', file, hreport⟩ := Command.diagnose_eq hloaded hoptions
    rw [hreport]
    refine ⟨?_, Command.countsLine_classify _ _⟩
    have hany := Command.anyError_classify loaded.text
    simp only [Id.run, Command.reportLog, hany]
    cases (logLines loaded.text).any isErrorLine <;> rfl

theorem Log.classify_byLines_overlapping :
    let log : Text := "! Undefined control sequence.\n! Missing $ inserted.\nl.3 \\foo\n"
    let tree : FileTree := { files := [(["a.log"], log)] }
    (Command.diagnose tree.disk ["a.log"]).run.status = 1 ∧
      (Command.diagnose tree.disk ["a.log"]).run.out = Command.countsLine 2 0 0 := by
  intro log tree
  have hlines := (Log.classify_byLines log).2 tree.disk "a.log" [] {} ⟨[⟨"a.log", .log⟩]⟩
    ⟨Utf8.repair log, 1, Utf8.replacements log⟩ rfl (by decide +kernel) rfl
  have hcounts : ((log.splitOn ('\n' : UInt8)).map Text.withoutReturn).any isErrorLine = true ∧
      ((log.splitOn ('\n' : UInt8)).map Text.withoutReturn).countP isErrorLine = 2 ∧
      ((log.splitOn ('\n' : UInt8)).map Text.withoutReturn).countP isUndefinedName = 0 ∧
      ((log.splitOn ('\n' : UInt8)).map Text.withoutReturn).countP
        (fun line => isBadBox line && !isUndefinedName line) = 0 := by
    decide +kernel
  obtain ⟨herrors, herrorCount, hwarnings, hnotes⟩ := hcounts
  simpa only [herrors, herrorCount, hwarnings, hnotes, if_true] using hlines

end LatexIntegrity
