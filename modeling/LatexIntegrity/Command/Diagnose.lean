import LatexIntegrity.Command.Outcome
import LatexIntegrity.Log.Classify

/-!
The command `diagnose` classifies a compiler log.

Line numbers in a log refer to the source that was compiled.  Diagnostics are
attributed to it if it is named, and to the log otherwise.
-/

namespace LatexIntegrity.Command

structure DiagnoseOptions where
  source : Text := []
  deriving DecidableEq, Repr

def DiagnoseOptions.read (options : DiagnoseOptions) :
    List Text → Except UsageError DiagnoseOptions
  | [] => .ok options
  | option :: rest =>
      if option == "--tex" then
        match rest with
        | [] => .error (.unknownOption "diagnose" option)
        | path :: rest => DiagnoseOptions.read { options with source := path } rest
      else .error (.unknownOption "diagnose" option)

def attribution (options : DiagnoseOptions) (registry : Registry) (log : UInt32) :
    Except LoadError (Registry × UInt32) :=
  if options.source.isEmpty then .ok (registry, log)
  else registry.register options.source .document

def renderCounts (diagnostics : List Diagnostic) : Text :=
  let notes := Diagnostic.count .note diagnostics
  Decimal.render (Diagnostic.count .error diagnostics) ++ " error(s), " ++
    Decimal.render (Diagnostic.count .warning diagnostics) ++ " warning(s)" ++
    (if notes = 0 then [] else ", " ++ Decimal.render notes ++ " note(s)" : Text) ++ "\n"

def reportLog (registry : Registry) (file : UInt32) (log : Text) : Outcome :=
  let diagnostics := (Log.classify log).map (·.toDiagnostic file none)
  { status := Outcome.statusOf (!Diagnostic.anyError diagnostics)
    out := renderCounts diagnostics
    err := Diagnostic.renderAll registry diagnostics }

def diagnoseLog (options : DiagnoseOptions) (registry : Registry) (log : LoadedText) :
    Outcome :=
  match attribution options registry log.file with
  | .error error => .notLoaded error
  | .ok (registry, file) => reportLog registry file log.text

def diagnose {m : Type → Type} [Monad m] (disk : Disk m) : List Text → m Outcome :=
  withOptions (DiagnoseOptions.read {}) fun path options => do
    match ← readText disk .empty path .log with
    | .error error => return .notLoaded error
    | .ok (registry, log) => return diagnoseLog options registry log

end LatexIntegrity.Command
