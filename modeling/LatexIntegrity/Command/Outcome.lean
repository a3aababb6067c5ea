import LatexIntegrity.Command.Usage
import LatexIntegrity.Report.Diagnostic
import LatexIntegrity.Source.Disk
import LatexIntegrity.Source.Load

/-!
What a command leaves behind.
-/

namespace LatexIntegrity.Command

/-- The exit status, the two output streams and the files written, path by path. -/
structure Outcome where
  status : Nat := 0
  out : Text := []
  err : Text := []
  written : List (Text × Text) := []
  deriving DecidableEq, Repr

namespace Outcome

def statusOf (success : Bool) : Nat := if success then 0 else 1

def failed (err : Text) : Outcome := { status := 1, err := err }

def misused (error : UsageError) : Outcome := failed error.message

def refused (message : Text) : Outcome :=
  failed ((Diagnostic.failure message).render .empty)

def notLoaded (error : LoadError) : Outcome := refused error.message

def undelivered (outcome : Outcome) (message : Text) : Outcome :=
  { outcome with
    status := 1
    err := outcome.err ++ (Diagnostic.failure message).render .empty }

/--
Writes the result of a command to a file, or to the standard output if `path` is
empty.  A file that has been written is named behind `announcement`.
-/
def deliver {m : Type → Type} [Monad m] (outcome : Outcome) (disk : Disk m)
    (path text announcement : Text) : m Outcome := do
  if path.isEmpty then return { outcome with out := outcome.out ++ text }
  else match ← disk.write path text with
    | .written =>
        return { outcome with
          err := outcome.err ++ announcement ++ path ++ "\n"
          written := outcome.written ++ [(path, text)] }
    | .refused => return outcome.undelivered ("unable to write " ++ path)
    | .broken => return outcome.undelivered ("error writing " ++ path)

end Outcome

/-- Runs a command with its path and with the options behind the path. -/
def withOptions {m : Type → Type} [Monad m] {α : Type}
    (read : List Text → Except UsageError α) (command : Text → α → m Outcome) :
    List Text → m Outcome
  | [] => pure (.misused .missingArgument)
  | path :: rest =>
      match read rest with
      | .error error => pure (.misused error)
      | .ok options => command path options

def withDocument {m : Type → Type} [Monad m] (disk : Disk m) (path : Text)
    (command : Registry → Document → m Outcome) : m Outcome := do
  match ← readDocument disk .empty path .document with
  | .error error => return .notLoaded error
  | .ok (registry, document) => command registry document

end LatexIntegrity.Command
