import LatexIntegrity.Report.Issue
import LatexIntegrity.Source.Document
import LatexIntegrity.Source.Registry

/-!
Diagnostics are findings as they are printed, each on one line: the place, if it
is known, then the severity, a code in brackets and the message.
-/

namespace LatexIntegrity

structure Diagnostic where
  severity : Severity
  message : Text
  location : Location := {}
  code : Text := []
  deriving DecidableEq, Repr

namespace Diagnostic

def failure (message : Text) : Diagnostic := { severity := .error, message := message }

def renderNumber (number : UInt32) : Text :=
  if number == 0 then [] else ":" ++ Decimal.render number.toNat

def renderPosition (location : Location) : Text :=
  if location.line == 0 then []
  else renderNumber location.line ++ renderNumber location.column

def renderCode (code : Text) : Text := if code.isEmpty then [] else "[" ++ code ++ "] "

/-- The place, in front of everything else.  A file without a path has none. -/
def renderPlace (registry : Registry) (location : Location) : Text :=
  let path := registry.path location.file
  if path.isEmpty then [] else path ++ renderPosition location ++ ": "

def render (registry : Registry) (diagnostic : Diagnostic) : Text :=
  renderPlace registry diagnostic.location ++ diagnostic.severity.label ++ ": " ++
    renderCode diagnostic.code ++ diagnostic.message ++ "\n"

end Diagnostic

namespace Issue

/--
The diagnostic of an issue in the file `file`.  With a document, the offset of
the issue is located in it; otherwise its line number, if it has one, is taken.
-/
def toDiagnostic (issue : Issue) (file : UInt32) (document : Option Document) : Diagnostic :=
  let location : Location :=
    match document, issue.offset with
    | some document, some offset => { document.locate offset with file := file }
    | _, _ => { file := file, line := ((issue.line.map Nat.toUInt32).getD 0) }
  { severity := issue.severity
    message := issue.message
    location := location
    code := issue.kind.label }

def renderAll (registry : Registry) (file : UInt32) (document : Option Document)
    (issues : List Issue) : Text :=
  issues.flatMap fun issue => (issue.toDiagnostic file document).render registry

end Issue

/-! ## Collections of diagnostics -/

namespace Diagnostic

def count (severity : Severity) (diagnostics : List Diagnostic) : Nat :=
  diagnostics.countP (·.severity == severity)

def anyError (diagnostics : List Diagnostic) : Bool := count .error diagnostics != 0

def renderAll (registry : Registry) (diagnostics : List Diagnostic) : Text :=
  diagnostics.flatMap (render registry)

end Diagnostic

end LatexIntegrity
