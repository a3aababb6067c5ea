import LatexIntegrity.Repair.Round
import LatexIntegrity.Sanitize.Document

/-!
Settings of the commands, and how the lines of a settings file change them.

Lines are comments, section headers in brackets, or assignments.  Sections and
keys match in either case.  A line that assigns no valid value is passed over.
-/

namespace LatexIntegrity

/-!
## Round counts

A count is white space, an optional sign and decimal digits, and nothing else.
The value is taken as a 64-bit word, so a minus sign stands for the complement of
the number behind it, and must lie between 1 and 100.
-/

namespace RoundCount

def largest : Nat := 100

def splitSign (text : Text) : Bool × Text :=
  match text with
  | [] => (false, [])
  | b :: rest =>
      if b == '-' then (true, rest) else if b == '+' then (false, rest) else (false, text)

def signed (isNegative : Bool) (number : Nat) : Nat :=
  if isNegative then wordDifference 0 number else number

def word? (text : Text) : Option Nat := do
  let (isNegative, digits) := splitSign (text.dropWhile Ascii.isSpace)
  let number ← Decimal.read? digits
  if (Decimal.run digits).length = digits.length then some (signed isNegative number)
  else none

def read? (text : Text) : Option Nat :=
  (word? text).filter fun count => 1 ≤ count && count ≤ largest

end RoundCount

/-! ## Settings -/

structure Settings where
  maxRounds : Nat := 3
  figures : FigureOptions := {}
  onlyTables : Bool := false
  deriving DecidableEq, Repr

namespace Settings

def default : Settings := {}

/-! ## Values -/

def trim (text : Text) : Text := Text.trim Ascii.isSpace text

def items (value : Text) : List Text :=
  ((Text.splitAt ',' value).map trim).filter (!·.isEmpty)

def flag? (value : Text) : Option Bool :=
  let folded := Ascii.lower value
  if (["1", "true", "yes"] : List Text).contains folded then some true
  else if (["0", "false", "no"] : List Text).contains folded then some false
  else none

/-! ## Lines -/

inductive Line where
  | blank
  | header (name : Text)
  | assignment (key value : Text)
  deriving DecidableEq, Repr

def isHeader (line : Text) : Bool :=
  line.head? == some ('[' : UInt8) && line.getLast? == some (']' : UInt8)

def isComment (line : Text) : Bool :=
  line.head? == some ('#' : UInt8) || line.head? == some (';' : UInt8)

def Line.read (source : Text) : Line :=
  let line := trim source
  if isComment line then .blank
  else if isHeader line then .header (Ascii.lower (line.drop 1).dropLast)
  else match Text.splitFirst? '=' line with
    | none => .blank
    | some (key, value) => .assignment (Ascii.lower (trim key)) (trim value)

/-! ## Assignments -/

def assignRounds (settings : Settings) (value : Text) : Settings :=
  match RoundCount.read? value with
  | some rounds => { settings with maxRounds := rounds }
  | none => settings

def assignExtensions (settings : Settings) (value : Text) : Settings :=
  if (items value).isEmpty then settings
  else { settings with figures := { settings.figures with extensions := items value } }

/-- A space always comes between the marker and the line that it marks. -/
def assignMarker (settings : Settings) (value : Text) : Settings :=
  if value.isEmpty then settings
  else { settings with figures := { settings.figures with marker := value ++ " " } }

def assignOnlyTables (settings : Settings) (value : Text) : Settings :=
  match flag? value with
  | some flag => { settings with onlyTables := flag }
  | none => settings

def assign (settings : Settings) (heading key value : Text) : Settings :=
  if heading == "repair" then
    if key == "max_rounds" then settings.assignRounds value
    else if key == "image_extensions" then settings.assignExtensions value
    else if key == "missing_figure_marker" then settings.assignMarker value
    else settings
  else if heading == "sanitize" && key == "tables_only" then settings.assignOnlyTables value
  else settings

def applyLines (settings : Settings) (heading : Text) : List Text → Settings
  | [] => settings
  | line :: rest =>
      match Line.read line with
      | .blank => settings.applyLines heading rest
      | .header name => settings.applyLines name rest
      | .assignment key value => (settings.assign heading key value).applyLines heading rest

def apply (settings : Settings) (content : Text) : Settings :=
  settings.applyLines [] (Text.lines content)

def load? {m : Type → Type} [Monad m] (disk : Disk m) (settings : Settings) (path : Text) :
    m (Option Settings) := do
  return (← disk.read path).map fun file => settings.apply file.content

end Settings

end LatexIntegrity
