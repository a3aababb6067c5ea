import LatexIntegrity.Text.Ascii
import LatexIntegrity.Markup.LeftContext

/-!
Control words, which are a backslash and the letters behind it, and environments
with the delimiters that open and close them.
-/

namespace LatexIntegrity

def controlWord : Text → Text
  | [] => []
  | b :: rest => if b == '\\' then rest.takeWhile Ascii.isLetter else []

def afterControlWord (text : Text) : Text := text.drop (1 + (controlWord text).length)

/-- The offsets at which the command `word`, and no longer word, is not escaped. -/
def commandOffsets (word text : Text) : List Nat :=
  (Text.occurrences ('\\' :: word) text).filter fun offset =>
    controlWord (text.drop offset) == word && !isEscapedAt text offset

namespace Environment

def isTabular (name : Text) : Bool := name == "tabular" || name == "tabular*"

def isFigure (name : Text) : Bool := name == "figure" || name == "figure*"

def isNameByte (b : UInt8) : Bool :=
  Ascii.isAlphanumeric b || b == '_' || b == '@' || b == '*'

def closer (name : Text) : Text := "\\end\x7b" ++ name ++ "\x7d"

end Environment

inductive DelimiterSide where
  | opening
  | closing
  deriving DecidableEq, Repr

def DelimiterSide.word : DelimiterSide → Text
  | .opening => "begin"
  | .closing => "end"

structure DelimiterToken where
  side : DelimiterSide
  name : Text
  deriving DecidableEq, Repr

namespace DelimiterToken

def source (token : DelimiterToken) : Text :=
  "\\" ++ token.side.word ++ "\x7b" ++ token.name ++ "\x7d"

def side? (word : Text) : Option DelimiterSide :=
  if word == DelimiterSide.opening.word then some .opening
  else if word == DelimiterSide.closing.word then some .closing
  else none

def name? (text : Text) : Option Text :=
  let name := text.takeWhile Environment.isNameByte
  if name.isEmpty then none
  else if (text.drop name.length).head? = some ('}' : UInt8) then some name
  else none

def read? (text : Text) : Option DelimiterToken :=
  match side? (controlWord text), afterControlWord text with
  | some side, b :: rest => if b == '{' then (name? rest).map (⟨side, ·⟩) else none
  | _, _ => none

end DelimiterToken

structure Delimiter extends DelimiterToken where
  position : Nat
  deriving DecidableEq, Repr

namespace Delimiter

def stop (delimiter : Delimiter) : Nat :=
  delimiter.position + delimiter.source.length

def read? (context : LeftContext) (position : Nat) (rest : Text) : Option Delimiter :=
  if context.escaped then none
  else (DelimiterToken.read? rest).map (⟨·, position⟩)

end Delimiter

def delimiterAt? (text : Text) (offset : Nat) : Option Delimiter :=
  Delimiter.read? (LeftContext.after (text.take offset)) offset (text.drop offset)

def Environment.closingDistance? (name : Text) : LeftContext → Text → Option Nat :=
  distance? fun context rest =>
    !context.escaped && DelimiterToken.read? rest == some ⟨.closing, name⟩

def Environment.closingFrom? (name text : Text) (offset : Nat) : Option Delimiter :=
  (closingDistance? name (LeftContext.after (text.take offset)) (text.drop offset)).map
    fun distance => ⟨⟨.closing, name⟩, offset + distance⟩

end LatexIntegrity
