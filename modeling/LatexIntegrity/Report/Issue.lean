import LatexIntegrity.Text.Ascii

/-!
Issues are findings about a document, in terms of the document, and fixes are
records of repairs.
-/

namespace LatexIntegrity

/-! ## Issues -/

inductive Severity where
  | note
  | warning
  | error
  deriving DecidableEq, Repr

def Severity.label : Severity → Text
  | .note => "note"
  | .warning => "warning"
  | .error => "error"

inductive IssueKind where
  | undefinedCommand
  | missingMath
  | missingBrace
  | undefinedEnvironment
  | missingFile
  | misplacedAlignTab
  | undefinedCitation
  | undefinedReference
  | environmentImbalance
  | badBox
  | todoMarker
  | missingSection
  | anonymization
  | other
  deriving DecidableEq, Repr

def IssueKind.label : IssueKind → Text
  | .undefinedCommand => "undefined-command"
  | .missingMath => "missing-math"
  | .missingBrace => "missing-brace"
  | .undefinedEnvironment => "undefined-environment"
  | .missingFile => "missing-file"
  | .misplacedAlignTab => "misplaced-align-tab"
  | .undefinedCitation => "undefined-citation"
  | .undefinedReference => "undefined-reference"
  | .environmentImbalance => "environment-imbalance"
  | .badBox => "bad-box"
  | .todoMarker => "todo-marker"
  | .missingSection => "missing-section"
  | .anonymization => "anonymization"
  | .other => "other"

structure Issue where
  kind : IssueKind := .other
  severity : Severity := .error
  message : Text := []
  /-- A line number that the message itself gives. -/
  line : Option Nat := none
  /-- The place in the document, if the issue has one. -/
  offset : Option Nat := none
  /-- What the issue is about: a citation key, a marker or a section. -/
  key : Text := []
  environment : Text := []
  opened : Nat := 0
  closed : Nat := 0
  /-- Lines of a log that explain the issue. -/
  context : List Text := []
  deriving DecidableEq, Repr

namespace Issue

def imbalance (name : Text) (opened closed offset : Nat) : Issue :=
  { kind := .environmentImbalance
    message :=
      "environment '" ++ name ++ "' has " ++ Decimal.render opened ++ " \\begin and " ++
        Decimal.render closed ++ " \\end"
    offset := some offset
    environment := name
    opened := opened
    closed := closed }

def isBlocking (issue : Issue) : Bool := issue.severity != .note

end Issue

/-! ## Fixes -/

structure Fix where
  name : Text
  description : Text
  /-- False for a repair that was found necessary and left undone. -/
  applied : Bool := true
  deriving DecidableEq, Repr

namespace Fix

/-- A fix left undone is a repeat if the list has it already. -/
def isRepeat (listed : List Fix) (fix : Fix) : Bool :=
  !fix.applied && listed.contains fix

def insert (listed : List Fix) (fix : Fix) : List Fix :=
  if isRepeat listed fix then listed else listed ++ [fix]

def merge (listed later : List Fix) : List Fix := later.foldl insert listed

def countApplied (fixes : List Fix) : Nat := fixes.countP (·.applied)

end Fix

end LatexIntegrity
