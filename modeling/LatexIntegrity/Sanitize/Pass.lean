import LatexIntegrity.Sanitize.Table
import LatexIntegrity.Markup.LeftContext

/-!
One pass of an escape table over a range of a text.

Bytes outside the range count as neighbours only: a backslash before the range
escapes its first byte, and dollar signs next to the range are kept apart from
inserted mathematics.  No key reaches across the end of the range.
-/

namespace LatexIntegrity.EscapePass

/-- Keeps two adjacent dollar signs from reading as one display delimiter. -/
def separator : Text := "\x7b\x7d"

def beginsWithDollar (replacement : Text) : Bool := replacement.head? == some ('$' : UInt8)

def endsInDollar (replacement : Text) : Bool := replacement.getLast? == some ('$' : UInt8)

structure State where
  /-- What the bytes read say about the next byte. -/
  context : LeftContext
  /-- The last byte written, or the one before the range. -/
  last : Option UInt8
  /-- The last byte written is a dollar sign that a replacement brought. -/
  inserted : Bool
  deriving DecidableEq, Repr

def State.start (before : Text) : State := ⟨.after before, before.getLast?, false⟩

def State.written (state : State) (replacement : Text) : Text :=
  (if beginsWithDollar replacement && state.last == some ('$' : UInt8) then separator else [])
    ++ replacement

def State.replace (state : State) (entry : EscapeRule) : State :=
  { context := state.context.pushAll entry.key
    last := if entry.replacement.isEmpty then state.last else entry.replacement.getLast?
    inserted :=
      if entry.replacement.isEmpty then state.inserted else endsInDollar entry.replacement }

def State.copy (state : State) (b : UInt8) : State :=
  ⟨state.context.push b, some b, false⟩

def State.gap (state : State) (next : Option UInt8) : Text :=
  if state.inserted && next == some ('$' : UInt8) then separator else []

/--
The text with its keys replaced, where `next` is the byte behind it.  With
`keepEscaped`, a key behind an escaping backslash stays.
-/
def run (table : EscapeTable) (keepEscaped : Bool) (next : Option UInt8)
    (state : State) (text : Text) : Text :=
  match text with
  | [] => state.gap next
  | b :: rest =>
      match table.match? (b :: rest) with
      | some entry =>
          if keepEscaped && state.context.escaped then
            state.gap (some b) ++ b :: run table keepEscaped next (state.copy b) rest
          else
            state.written entry.replacement ++
              run table keepEscaped next (state.replace entry)
                (rest.drop (entry.key.length - 1))
      | none => state.gap (some b) ++ b :: run table keepEscaped next (state.copy b) rest
  termination_by text.length
  decreasing_by all_goals simp only [List.length_drop, List.length_cons]; omega

def range (table : EscapeTable) (keepEscaped : Bool) (text : Text)
    (start stop : Nat) : Text :=
  run table keepEscaped (text.drop stop).head? (.start (text.take start))
    ((text.take stop).drop start)

end LatexIntegrity.EscapePass
