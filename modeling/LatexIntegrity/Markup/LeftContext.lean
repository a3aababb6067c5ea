import LatexIntegrity.Text.Basic

/-!
What the bytes before an offset say about the byte at it.

A backslash takes the byte behind it literally, and a dollar sign is read
together with an adjacent dollar sign.  Both facts are kept while a text is
read from left to right, so that recognising a construct needs only this
summary and the rest of the text.
-/

namespace LatexIntegrity

structure LeftContext where
  /-- An odd number of backslashes comes directly before. -/
  escaped : Bool
  /-- A dollar sign comes directly before. -/
  dollar : Bool
  deriving DecidableEq, Repr

namespace LeftContext

def initial : LeftContext := ⟨false, false⟩

def push (context : LeftContext) (b : UInt8) : LeftContext :=
  ⟨b == '\\' && !context.escaped, b == '$'⟩

def pushAll (context : LeftContext) (bytes : Text) : LeftContext :=
  bytes.foldl push context

def after (text : Text) : LeftContext := initial.pushAll text

@[simp] theorem pushAll_nil (context : LeftContext) : context.pushAll [] = context := rfl

@[simp] theorem pushAll_cons (context : LeftContext) (b : UInt8) (bytes : Text) :
    context.pushAll (b :: bytes) = (context.push b).pushAll bytes := rfl

theorem pushAll_append (context : LeftContext) (first second : Text) :
    context.pushAll (first ++ second) = (context.pushAll first).pushAll second := by
  simp [pushAll]

theorem after_append (before bytes : Text) :
    after (before ++ bytes) = (after before).pushAll bytes :=
  pushAll_append initial before bytes

theorem after_concat (before : Text) (b : UInt8) :
    after (before ++ [b]) = (after before).push b :=
  after_append before [b]

end LeftContext

def isEscapedAt (text : Text) (offset : Nat) : Bool :=
  (LeftContext.after (text.take offset)).escaped

/--
The distance to the first place whose context and remaining text satisfy `p`.
The end of the text is no place.
-/
def distance? (p : LeftContext → Text → Bool) (context : LeftContext) : Text → Option Nat
  | [] => none
  | b :: rest =>
      if p context (b :: rest) then some 0
      else (distance? p (context.push b) rest).map (· + 1)

def unescapedDistance? (token : Text) : LeftContext → Text → Option Nat :=
  distance? fun context rest => !context.escaped && token.isPrefixOf rest

end LatexIntegrity
