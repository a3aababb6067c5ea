import LatexIntegrity.Text.Basic

/-!
ASCII character classes and case folding, decided byte by byte, and decimal
numbers.  A byte outside ASCII belongs to no class and is its own lower case.
-/

namespace LatexIntegrity

namespace Ascii

def isLower (b : UInt8) : Bool := 'a' ≤ b && b ≤ 'z'

def isUpper (b : UInt8) : Bool := 'A' ≤ b && b ≤ 'Z'

def isLetter (b : UInt8) : Bool := isLower b || isUpper b

def isDigit (b : UInt8) : Bool := '0' ≤ b && b ≤ '9'

def isAlphanumeric (b : UInt8) : Bool := isLetter b || isDigit b

def isSpace (b : UInt8) : Bool := b == ' ' || (9 ≤ b && b ≤ 13)

def isBlank (b : UInt8) : Bool := b == ' ' || b == '\t'

def toLower (b : UInt8) : UInt8 := if isUpper b then b + 32 else b

def lower (text : Text) : Text := text.map toLower

def startsIgnoringCase (needle text : Text) : Bool :=
  (lower needle).isPrefixOf (lower (text.take needle.length))

/--
Whether `needle` stands at offset `offset`, up to the case of ASCII letters.  Behind
the end of the text nothing stands, not even the empty text.
-/
def hasAtIgnoringCase (text : Text) (offset : Nat) (needle : Text) : Bool :=
  offset ≤ text.length && startsIgnoringCase needle (text.drop offset)

theorem forall_byte {p : UInt8 → Prop} (h : ∀ n < 256, p (UInt8.ofNat n)) (b : UInt8) : p b := by
  have hb := h b.toNat b.toNat_lt
  rwa [UInt8.ofNat_toNat] at hb

end Ascii

/-! ## Words -/

def wordSize : Nat := 18446744073709551616

/-- The difference of two words as a word; below zero it wraps around. -/
def wordDifference (first second : Nat) : Nat :=
  if second ≤ first then first - second else first + wordSize - second

/-!
## Decimal numbers

A number is read digit by digit into a 64-bit word, and a run of digits whose
value no word holds is no number.
-/

namespace Decimal

def render (n : Nat) : Text := (Nat.toDigits 10 n).map Char.toUInt8

def value (digits : Text) : Nat :=
  digits.foldl (fun total digit => total * 10 + (digit.toNat - 48)) 0

def run (text : Text) : Text := text.takeWhile Ascii.isDigit

def largestWord : UInt64 := 18446744073709551615

/-- The number with one more digit behind its digits, unless no word holds it. -/
def appendDigit? (total : UInt64) (digit : UInt8) : Option UInt64 :=
  let units := (digit - '0').toUInt64
  if (largestWord - units) / 10 < total then none else some (total * 10 + units)

def read? (text : Text) : Option Nat :=
  let digits := run text
  if digits.isEmpty then none
  else (digits.foldlM appendDigit? 0).map UInt64.toNat

end Decimal

end LatexIntegrity
