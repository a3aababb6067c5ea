import LatexIntegrity.Command.Check
import LatexIntegrity.Command.Document
import LatexIntegrity.Command.Diagnose
import LatexIntegrity.Command.Repair

/-!
The command line: settings files, then a command with its arguments.
-/

namespace LatexIntegrity.Command

def dispatch {m : Type → Type} [Monad m] (disk : Disk m) (settings : Settings) :
    List Text → m Outcome
  | [] => pure (.misused .missingArgument)
  | command :: arguments =>
      if command == "--version" then pure { out := versionText }
      else if command == "--help" || command == "-h" then pure { err := usage }
      else if command == "clean" then clean disk settings arguments
      else if command == "check" then check disk arguments
      else if command == "diagnose" then diagnose disk arguments
      else if command == "fix" then fix disk settings arguments
      else if command == "spans" then spans disk arguments
      else pure (.misused (.unknownCommand command))

/-- Loads the settings files at the head of the arguments, each over the ones before. -/
def configure {m : Type → Type} [Monad m] (disk : Disk m) (settings : Settings) :
    List Text → m Outcome
  | [] => pure (.misused .missingArgument)
  | first :: rest =>
      if first == "--config" then
        match rest with
        | [] => pure (.misused .missingArgument)
        | path :: rest => do
            match ← Settings.load? disk settings path with
            | none => return .refused ("unable to open config " ++ path)
            | some settings => configure disk settings rest
      else dispatch disk settings (first :: rest)

/-- An argument ends at its first NUL byte. -/
def argument (bytes : Text) : Text := bytes.takeWhile (· != 0)

def run {m : Type → Type} [Monad m] (disk : Disk m) (arguments : List Text) : m Outcome :=
  configure disk .default (arguments.map argument)

end LatexIntegrity.Command
