import LatexIntegrity.Command.Outcome
import LatexIntegrity.Log.Classify
import LatexIntegrity.Settings.Basic

/-!
The command `fix` repairs a document.
-/

namespace LatexIntegrity.Command

structure FixOptions where
  output : Text := []
  /-- The compiler log to take issues from; empty for none. -/
  log : Text := []
  detectLog : Bool := false
  preview : Bool := false
  rounds : Nat
  deriving DecidableEq, Repr

namespace FixOptions

def read (options : FixOptions) : List Text → Except UsageError FixOptions
  | [] =>
      if !options.log.isEmpty && options.detectLog then .error .conflictingLogs
      else .ok options
  | option :: rest =>
      if option == "-o" then
        match rest with
        | [] => .error (.unknownOption "fix" option)
        | path :: rest => read { options with output := path } rest
      else if option == "--log" then
        match rest with
        | [] => .error (.unknownOption "fix" option)
        | path :: rest => read { options with log := path } rest
      else if option == "--auto-detect" then read { options with detectLog := true } rest
      else if option == "--dry-run" then read { options with preview := true } rest
      else if option == "--rounds" then
        match rest with
        | [] => .error (.unknownOption "fix" option)
        | value :: rest =>
            match RoundCount.read? value with
            | none => .error (.invalidRounds value)
            | some rounds => read { options with rounds := rounds } rest
      else .error (.unknownOption "fix" option)

end FixOptions

/-! ## The log -/

def listedIssues : Nat := 10

def listedBytes : Nat := 80

def renderLogIssue (issue : Issue) : Text :=
  "  [" ++ issue.kind.label ++ "] " ++ issue.message.take listedBytes ++ "\n"

def renderLogIssues (issues : List Issue) : Text :=
  if issues.isEmpty then []
  else
    "Found " ++ Decimal.render issues.length ++ " errors/warnings in log\n" ++
      (issues.take listedIssues).flatMap renderLogIssue

def logPath {m : Type → Type} [Monad m] (disk : Disk m) (options : FixOptions)
    (document : Text) : m Text := do
  if options.detectLog then
    let path := Path.withExtension ".log" document
    return if ← disk.isPresent path then path else []
  else return options.log

def logIssues {m : Type → Type} [Monad m] (disk : Disk m) (registry : Registry)
    (path : Text) : m (Except LoadError (Registry × Option (List Issue))) := do
  if path.isEmpty then return .ok (registry, none)
  else match ← readText disk registry path .log with
    | .error error => return .error error
    | .ok (registry, log) => return .ok (registry, some (Log.classify log.text))

/-! ## Report -/

def renderFix (fix : Fix) : Text :=
  "  - [" ++ fix.name ++ "] " ++ fix.description ++
    (if fix.applied then [] else " (not applied)" : Text) ++ "\n"

def renderFixes (fixes : List Fix) : Text := fixes.flatMap renderFix

def renderPreview (fixes : List Fix) : Text :=
  "## Fixes that would be applied (" ++ Decimal.render (Fix.countApplied fixes) ++ "):\n" ++
    renderFixes fixes ++
    (if Fix.countApplied fixes = 0 then "  No fixes needed.\n" else [] : Text)

def renderApplied (fixes : List Fix) : Text :=
  (if Fix.countApplied fixes = 0 then "No fixes needed.\n"
    else "\nApplied " ++ Decimal.render (Fix.countApplied fixes) ++ " fixes:\n" : Text) ++
    renderFixes fixes

def reportRepair {m : Type → Type} [Monad m] (disk : Disk m) (options : FixOptions)
    (registry : Registry) (document : Document) (logListing : Text)
    (progress : Repair.Progress) : m Outcome :=
  let repaired := { document with text := progress.text }
  let residual :=
    Issue.renderAll registry document.file (some repaired) progress.residual
  let status := Outcome.statusOf (!progress.residual.any Issue.isBlocking)
  if options.preview then
    pure
      { status := status
        out := renderPreview progress.fixes
        err := logListing ++ residual }
  else
    ({ status := status
       err := logListing ++ residual ++ renderApplied progress.fixes } : Outcome).deliver
      disk options.output progress.text "Fixed file written to "

def repairDocument {m : Type → Type} [Monad m] (disk : Disk m) (settings : Settings)
    (options : FixOptions) (registry : Registry) (document : Document) : m Outcome := do
  let path ← logPath disk options document.path
  match ← logIssues disk registry path with
  | .error error => return .notLoaded error
  | .ok (registry, issues) =>
      let progress ← Repair.repeatRounds disk settings.figures
        (disk.directoryOf document.path) issues options.rounds document.text
      reportRepair disk options registry document (renderLogIssues (issues.getD [])) progress

def fix {m : Type → Type} [Monad m] (disk : Disk m) (settings : Settings) :
    List Text → m Outcome :=
  withOptions (FixOptions.read { rounds := settings.maxRounds }) fun path options =>
    withDocument disk path (repairDocument disk settings options)

end LatexIntegrity.Command
