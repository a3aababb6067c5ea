import LatexIntegrity.Text.Basic

/-!
UTF-8 repair.

A byte sequence falls into chunks from left to right: well-formed sequences of
one code point each, and maximal parts that begin such a sequence without
completing it.  A byte that begins no sequence is an ill-formed chunk by
itself.  Repair keeps the well-formed chunks and writes U+FFFD for each of the
others.
-/

namespace LatexIntegrity.Utf8

structure ByteRange where
  low : UInt8
  high : UInt8
  deriving DecidableEq, Repr

def ByteRange.holds (range : ByteRange) (b : UInt8) : Bool :=
  range.low ≤ b && b ≤ range.high

def continuation : ByteRange := ⟨0x80, 0xBF⟩

/--
The ranges of the bytes that follow a lead byte.  The first of them is narrower
for some lead bytes, which excludes overlong forms, surrogates and values above
U+10FFFF.
-/
def followers (lead : UInt8) : Option (List ByteRange) :=
  if lead < 0x80 then some []
  else if 0xC2 ≤ lead && lead ≤ 0xDF then some [continuation]
  else if lead == 0xE0 then some [⟨0xA0, 0xBF⟩, continuation]
  else if lead == 0xED then some [⟨0x80, 0x9F⟩, continuation]
  else if 0xE1 ≤ lead && lead ≤ 0xEF then some [continuation, continuation]
  else if lead == 0xF0 then some [⟨0x90, 0xBF⟩, continuation, continuation]
  else if lead == 0xF4 then some [⟨0x80, 0x8F⟩, continuation, continuation]
  else if 0xF1 ≤ lead && lead ≤ 0xF3 then some [continuation, continuation, continuation]
  else none

def accepted : List ByteRange → Text → Nat
  | range :: ranges, b :: rest => if range.holds b then accepted ranges rest + 1 else 0
  | _, _ => 0

structure Chunk where
  bytes : Text
  wellFormed : Bool
  deriving DecidableEq, Repr

def firstChunk (lead : UInt8) (rest : Text) : Chunk :=
  match followers lead with
  | none => ⟨[lead], false⟩
  | some ranges =>
      let count := accepted ranges rest
      ⟨lead :: rest.take count, count == ranges.length⟩

def chunks (text : Text) : List Chunk :=
  match text with
  | [] => []
  | lead :: rest =>
      let chunk := firstChunk lead rest
      chunk :: chunks (rest.drop (chunk.bytes.length - 1))
  termination_by text.length
  decreasing_by simp only [List.length_drop, List.length_cons]; omega

def replacement : Text := [0xEF, 0xBF, 0xBD]

def Chunk.repaired (chunk : Chunk) : Text :=
  if chunk.wellFormed then chunk.bytes else replacement

/-- The text with every ill-formed chunk replaced by U+FFFD. -/
def repair (text : Text) : Text := (chunks text).flatMap Chunk.repaired

def replacements (text : Text) : Nat := (chunks text).countP (!·.wellFormed)

def isContinuation (b : UInt8) : Bool := continuation.holds b

def codePoints (text : Text) : Nat := text.countP (!isContinuation ·)

end LatexIntegrity.Utf8
