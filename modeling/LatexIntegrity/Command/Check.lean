import LatexIntegrity.Balance
import LatexIntegrity.Command.Outcome
import LatexIntegrity.Include.Expansion
import LatexIntegrity.Submission.Anonymity
import LatexIntegrity.Submission.Completeness
import LatexIntegrity.Submission.Statistics

/-!
The command `check` reports what is wrong with a document and its input files.
-/

namespace LatexIntegrity.Command

structure CheckOptions where
  anonymity : Bool := false
  statistics : Bool := false
  withInputs : Bool := true
  deriving DecidableEq, Repr

def CheckOptions.read (options : CheckOptions) : List Text → Except UsageError CheckOptions
  | [] => .ok options
  | option :: rest =>
      if option == "--check-anon" then CheckOptions.read { options with anonymity := true } rest
      else if option == "--venue" then
        match rest with
        | [] => .error (.unknownOption "check" option)
        | name :: rest =>
            match Venue.find? name with
            | none => .error (.unknownVenue name)
            | some venue =>
                CheckOptions.read
                  { options with anonymity := options.anonymity || venue.isAnonymous } rest
      else if option == "--stats" then CheckOptions.read { options with statistics := true } rest
      else if option == "--no-inputs" then
        CheckOptions.read { options with withInputs := false } rest
      else .error (.unknownOption "check" option)

/-! ## Input files -/

structure Inputs where
  registry : Registry
  resolved : List ResolvedInput := []
  unresolved : List Issue := []
  deriving DecidableEq, Repr

namespace Inputs

def notFound (path : Text) (offset : Nat) : Issue :=
  { kind := .missingFile
    severity := .note
    message := "input file " ++ Path.collapseSeparators path ++ " not found; not checked"
    offset := some offset }

def load {m : Type → Type} [Monad m] (disk : Disk m) (directory : Text) (inputs : Inputs) :
    List InputCommand → m (Except LoadError Inputs)
  | [] => pure (.ok inputs)
  | command :: rest => do
      let path := Path.resolve directory (InputCommand.fileName command.name)
      if ← disk.isPresent path then
        match ← readDocument disk inputs.registry path .input with
        | .error error => return .error error
        | .ok (registry, document) =>
            load disk directory
              { inputs with
                registry := registry
                resolved := inputs.resolved ++ [⟨command, some document⟩] } rest
      else
        load disk directory
          { inputs with
            unresolved := inputs.unresolved ++ [notFound path command.start] } rest

end Inputs

/-! ## Report -/

def documentIssues (options : CheckOptions) (text : Text) : List Issue :=
  balanceIssues text ++ Submission.markerIssues text ++
    (if Submission.isStandalone text then Submission.sectionIssues text else []) ++
    (if options.anonymity then Submission.anonymityIssues text else [])

def localDiagnostic (expansion : Expansion) (issue : Issue) : Diagnostic :=
  let (issue, document) := expansion.localize issue
  issue.toDiagnostic document.file (some document)

def renderHeading (heading : Submission.Heading) : Text := "  - " ++ heading.title ++ "\n"

def renderStatistics (statistics : Submission.Statistics) : Text :=
  "Estimated word count: " ++ Decimal.render statistics.words ++ "\n" ++
  "Sections: " ++ Decimal.render statistics.sections.length ++ "\n" ++
  statistics.sections.flatMap renderHeading ++
  "Citations: " ++ Decimal.render statistics.citations ++ "\n" ++
  "Figures: " ++ Decimal.render statistics.figures ++ "\n" ++
  "Tables: " ++ Decimal.render statistics.tables ++ "\n" ++
  "Equations: " ++ Decimal.render statistics.equations ++ "\n"

def checkLoaded (options : CheckOptions) (main : Document) (inputs : Inputs) : Outcome :=
  let expansion := Expansion.ofInputs main inputs.resolved
  let issues := documentIssues options expansion.text
  let passes := !issues.any Issue.isBlocking
  { status := Outcome.statusOf passes
    out :=
      (if options.statistics then renderStatistics (Submission.statistics expansion.text)
        else []) ++
      (if passes then "OK\n" else [] : Text)
    err :=
      Issue.renderAll inputs.registry main.file (some main) inputs.unresolved ++
        Diagnostic.renderAll inputs.registry (issues.map (localDiagnostic expansion)) }

def checkWithInputs {m : Type → Type} [Monad m] (disk : Disk m) (options : CheckOptions)
    (registry : Registry) (document : Document) : m Outcome := do
  let commands := if options.withInputs then inputCommands document.text else []
  match ← Inputs.load disk (disk.directoryOf document.path) ⟨registry, [], []⟩ commands with
  | .error error => return .notLoaded error
  | .ok inputs => return checkLoaded options document inputs

def check {m : Type → Type} [Monad m] (disk : Disk m) : List Text → m Outcome :=
  withOptions (CheckOptions.read {}) fun path options =>
    withDocument disk path (checkWithInputs disk options)

end LatexIntegrity.Command
