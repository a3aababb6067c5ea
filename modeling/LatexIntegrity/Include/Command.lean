import LatexIntegrity.Region.Scan

/-!
The commands that include another source file.
-/

namespace LatexIntegrity

structure InputCommand where
  name : Text
  start : Nat
  stop : Nat
  deriving DecidableEq, Repr

namespace InputCommand

def isPadding (b : UInt8) : Bool := Ascii.isBlank b || b == '\n'

def read? (context : LeftContext) (text : Text) : Option (Text × Nat) :=
  let command : Text := "input"
  if context.escaped || controlWord text != command then none
  else do
    let behind := afterControlWord text
    let blanks := (behind.takeWhile Ascii.isBlank).length
    let argument ← Group.argument? (behind.drop blanks)
    let name := Text.trim isPadding (Group.body argument (behind.drop blanks))
    if name.isEmpty then none else some (name, 1 + command.length + blanks + argument)

def listFrom (stop : Nat) (context : LeftContext) (offset : Nat) (text : Text) :
    List InputCommand :=
  match text with
  | [] => []
  | b :: rest =>
      if stop ≤ offset then []
      else match read? context (b :: rest) with
        | some (name, length) =>
            ⟨name, offset, offset + length⟩ ::
              listFrom stop (context.pushAll ((b :: rest).take length)) (offset + length)
                (rest.drop (length - 1))
        | none => listFrom stop (context.push b) (offset + 1) rest
  termination_by text.length
  decreasing_by all_goals simp only [List.length_drop, List.length_cons]; omega

def isCounted (span : Span) : Bool :=
  span.kind != .comment && span.kind != .definition

def listIn (text : Text) (span : Span) : List InputCommand :=
  listFrom span.stop (.after (text.take span.start)) span.start (text.drop span.start)

def fileName (name : Text) : Text :=
  let extension : Text := ".tex"
  if extension.isSuffixOf name then name else name ++ extension

end InputCommand

/-- The commands outside comments and definitions, span by span. -/
def inputCommands (text : Text) : List InputCommand :=
  ((segment text).filter InputCommand.isCounted).flatMap (InputCommand.listIn text)

end LatexIntegrity
