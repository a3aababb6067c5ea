import LatexIntegrity.Command.Outcome
import LatexIntegrity.Region.Scan
import LatexIntegrity.Report.LineChanges
import LatexIntegrity.Settings.Basic
import LatexIntegrity.Span.Partition

/-!
The commands that need nothing but a document: `clean` sanitizes it, and `spans`
lists its spans.
-/

namespace LatexIntegrity.Command

/-! ## Sanitization -/

structure CleanOptions where
  output : Text := []
  preview : Bool := false
  onlyTables : Bool := false
  deriving DecidableEq, Repr

namespace CleanOptions

def read (options : CleanOptions) : List Text → Except UsageError CleanOptions
  | [] => .ok options
  | option :: rest =>
      if option == "-o" then
        match rest with
        | [] => .error (.unknownOption "clean" option)
        | path :: rest => read { options with output := path } rest
      else if option == "--dry-run" then read { options with preview := true } rest
      else if option == "--tables-only" then read { options with onlyTables := true } rest
      else .error (.unknownOption "clean" option)

def scope (options : CleanOptions) : SanitizeScope :=
  if options.onlyTables then .onlyTables else .full

end CleanOptions

def cleanDocument {m : Type → Type} [Monad m] (disk : Disk m) (options : CleanOptions)
    (text : Text) : m Outcome :=
  let cleaned := sanitize .standard options.scope text
  if options.preview then pure { out := LineChange.summary text cleaned }
  else ({} : Outcome).deliver disk options.output cleaned "Cleaned file written to "

def clean {m : Type → Type} [Monad m] (disk : Disk m) (settings : Settings) :
    List Text → m Outcome :=
  withOptions (CleanOptions.read { onlyTables := settings.onlyTables }) fun path options =>
    withDocument disk path fun _ document => cleanDocument disk options document.text

/-! ## Spans -/

def renderSpan (span : Span) : Text :=
  Decimal.render span.start ++ ":" ++ Decimal.render span.stop ++ " " ++ span.kind.label ++
    (if span.name.isEmpty then [] else " " ++ span.name : Text) ++ "\n"

def listSpans (text : Text) : Outcome :=
  match partitionFault? (segment text) text.length with
  | some fault => .refused fault.message
  | none => { out := (segment text).flatMap renderSpan }

def spans {m : Type → Type} [Monad m] (disk : Disk m) : List Text → m Outcome
  | [path] => withDocument disk path fun _ document => pure (listSpans document.text)
  | _ => pure (.misused .missingArgument)

end LatexIntegrity.Command
