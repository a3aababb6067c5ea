import LatexIntegrity.Text.Ascii

/-!
A summary of the lines in which two texts differ, line by line from the start.
-/

namespace LatexIntegrity

structure LineChange where
  number : Nat
  before : Text
  after : Text
  deriving DecidableEq, Repr

namespace LineChange

def between (number : Nat) : List Text → List Text → List LineChange
  | first :: before, second :: after =>
      if first = second then between (number + 1) before after
      else ⟨number, first, second⟩ :: between (number + 1) before after
  | _, _ => []

/-- Lines that only one of the texts has are not compared. -/
def list (before after : Text) : List LineChange :=
  between 1 (Text.completeLines before) (Text.completeLines after)

def shownChanges : Nat := 20

def shownBytes : Nat := 100

def render (change : LineChange) : Text :=
  "Line " ++ Decimal.render change.number ++ ":\n  - " ++ change.before.take shownBytes ++
    "\n  + " ++ change.after.take shownBytes ++ "\n"

def renderHidden (count : Nat) : Text :=
  if count ≤ shownChanges then []
  else "... and " ++ Decimal.render (count - shownChanges) ++ " more changes\n"

def summary (before after : Text) : Text :=
  let changes := list before after
  (changes.take shownChanges).flatMap render ++ renderHidden changes.length ++
    "\nTotal lines changed: " ++ Decimal.render changes.length ++ "\n"

end LineChange

end LatexIntegrity
