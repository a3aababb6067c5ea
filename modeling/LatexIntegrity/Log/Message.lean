import LatexIntegrity.Report.Issue
import LatexIntegrity.Text.Basic

/-!
What the wording of one line of a compiler log says.
-/

namespace LatexIntegrity.Log

structure MessageRule where
  kind : IssueKind
  phrases : List Text
  deriving DecidableEq, Repr

def MessageRule.applies (rule : MessageRule) (message : Text) : Bool :=
  rule.phrases.all (Text.contains · message)

def messageRules : List MessageRule :=
  [⟨.undefinedCommand, ["Undefined control sequence"]⟩,
    ⟨.missingMath, ["Missing $ inserted"]⟩,
    ⟨.missingBrace, ["Missing \x7d inserted"]⟩,
    ⟨.missingBrace, ["Missing \x7b inserted"]⟩,
    ⟨.undefinedEnvironment, ["Environment", "undefined"]⟩,
    ⟨.missingFile, ["File", "not found"]⟩,
    ⟨.misplacedAlignTab, ["Misplaced alignment tab"]⟩]

def messageKind (message : Text) : IssueKind :=
  ((messageRules.find? (·.applies message)).map (·.kind)).getD .other

/-! ## Numbers -/

def isWordStart (text : Text) (offset : Nat) : Bool :=
  offset == 0 || !((text[offset - 1]?).map Ascii.isLetter).getD false

def lineMarker? (line : Text) : Option Nat :=
  (Text.occurrences "l." line).findSome? fun offset =>
    if isWordStart line offset then Decimal.read? (line.drop (offset + 2)) else none

def numberBehind? (phrase line : Text) : Option Nat := do
  let offset ← Text.search phrase line
  Decimal.read? (line.drop (offset + phrase.length))

/-! ## Quoted names -/

def quoted? (line : Text) : Option Text := do
  let (_, behind) ← Text.splitFirst? '`' line
  let (name, _) ← Text.splitFirst? '\'' behind
  return name

end LatexIntegrity.Log
