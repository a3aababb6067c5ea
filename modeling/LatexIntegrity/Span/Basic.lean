import LatexIntegrity.Text.Ascii

/-!
Spans classify byte ranges of a document.
-/

namespace LatexIntegrity

inductive RegionKind where
  | plain
  | comment
  | inlineMath
  | displayMath
  | delimitedMath
  | command
  | environment
  | definition
  deriving DecidableEq, Repr

def RegionKind.label : RegionKind → Text
  | .plain => "plain"
  | .comment => "comment"
  | .inlineMath => "inline-math"
  | .displayMath => "display-math"
  | .delimitedMath => "delimited-math"
  | .command => "command"
  | .environment => "environment"
  | .definition => "definition"

/-- Whether every byte of such a span survives sanitization. -/
def RegionKind.isShielded (kind : RegionKind) : Bool := kind != .plain

/-- The range from `start` up to, but not including, `stop`. -/
structure Span where
  start : Nat
  stop : Nat
  kind : RegionKind
  /-- The name of an environment; empty for other kinds. -/
  name : Text
  deriving DecidableEq, Repr

namespace Span

def length (span : Span) : Nat := wordDifference span.stop span.start

def isShielded (span : Span) : Bool := span.kind.isShielded

def contains (span : Span) (offset : Nat) : Bool :=
  span.start ≤ offset && offset < span.stop

theorem contains_iff {span : Span} {offset : Nat} :
    span.contains offset = true ↔ span.start ≤ offset ∧ offset < span.stop := by
  rw [contains, Bool.and_eq_true, decide_eq_true_eq, decide_eq_true_eq]

def isEnvironment (p : Text → Bool) (span : Span) : Bool :=
  span.kind == .environment && p span.name

/-- The bytes of a span, or nothing if it starts behind the end of the text. -/
def read? (text : Text) (span : Span) : Option Text :=
  if text.length < span.start then none
  else some ((text.drop span.start).take span.length)

def read (text : Text) (span : Span) : Text := (span.read? text).getD []

def find? (spans : List Span) (offset : Nat) : Option Nat :=
  match bisect (fun span => span.start ≤ offset) spans with
  | 0 => none
  | index + 1 =>
      match spans[index]? with
      | some span => if span.contains offset then some index else none
      | none => none

def findAt? (spans : List Span) (offset : Nat) : Option Span :=
  (find? spans offset).bind (spans[·]?)

end Span

end LatexIntegrity
