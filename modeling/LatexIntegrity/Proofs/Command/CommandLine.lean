import LatexIntegrity.Command.Run
import LatexIntegrity.Proofs.Settings.Assignments

/-!
# Command lines

A command line names settings files, a command, a path and options.  The readers of the options
accept the options of a table, in any order, and a command line of any other form is refused.
-/

namespace LatexIntegrity.Command

/-! ## Options -/

structure Choice where
  name : Text
  value : Option Text
  deriving DecidableEq, Repr

structure OptionTable where
  /-- The options that stand alone. -/
  flags : List Text
  /-- Whether an option may have a value behind it. -/
  takes : Text → Text → Prop

/-- Arguments that are options of a table one behind the other. -/
inductive OptionTable.Spells (table : OptionTable) : List Choice → List Text → Prop
  | nil : Spells table [] []
  | flag {name : Text} {choices : List Choice} {rest : List Text} (hflag : name ∈ table.flags)
      (hrest : Spells table choices rest) : Spells table (⟨name, none⟩ :: choices) (name :: rest)
  | value {name value : Text} {choices : List Choice} {rest : List Text}
      (htakes : table.takes name value) (hrest : Spells table choices rest) :
      Spells table (⟨name, some value⟩ :: choices) (name :: value :: rest)

/-- Arguments that are options which agree with each other. -/
def OptionTable.Accepts (table : OptionTable) (agree : List Choice → Prop)
    (arguments : List Text) : Prop :=
  ∃ choices, table.Spells choices arguments ∧ agree choices

def CleanOptions.table : OptionTable where
  flags := ["--dry-run", "--tables-only"]
  takes := fun name _ => name = "-o"

def CheckOptions.table : OptionTable where
  flags := ["--check-anon", "--stats", "--no-inputs"]
  takes := fun name value => name = "--venue" ∧ value ∈ Venue.known.map (·.name)

def DiagnoseOptions.table : OptionTable where
  flags := []
  takes := fun name _ => name = "--tex"

def FixOptions.table : OptionTable where
  flags := ["--auto-detect", "--dry-run"]
  takes := fun name value =>
    name = "-o" ∨ name = "--log" ∨
      name = "--rounds" ∧ ∃ rounds, RoundCount.Denotes value rounds

section Options

variable {table : OptionTable} {agree agree' : List Choice → Prop} {name value : Text}
  {rest : List Text}

end Options

/-! ## The readers of the commands -/

namespace FixOptions

end FixOptions

/-! ## Whole command lines -/

/-- A result that says why a command failed, and nothing else. -/
def Outcome.IsRefusal (outcome : Outcome) : Prop := ∃ err, outcome = .failed err

section Refusal

variable {disk : Disk Id} {settings : Settings} {arguments : List Text}

end Refusal

end LatexIntegrity.Command
