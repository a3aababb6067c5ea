/-!
Source text is a sequence of bytes.

Documents and compiler logs need not be valid UTF-8 when they are read, and
every offset that the library reports counts bytes, so a text is a list of
bytes rather than a list of characters.  String and character literals stand
for their bytes.
-/

namespace LatexIntegrity

abbrev Text := List UInt8

namespace Text

@[coe] def ofString (s : String) : Text := s.toUTF8.data.toList

end Text

instance Text.coeString : Coe String Text := ⟨Text.ofString⟩

/-- An ASCII character stands for its byte. -/
instance Text.coeChar : Coe Char UInt8 := ⟨Char.toUInt8⟩

namespace Text

def slice (text : Text) (start stop : Nat) : Text :=
  (text.drop start).take (stop - start)

/--
Whether `needle` stands at offset `offset`.  Behind the end of the text nothing
stands, not even the empty text.
-/
def hasAt (text : Text) (offset : Nat) (needle : Text) : Bool :=
  offset ≤ text.length && needle.isPrefixOf (text.drop offset)

/--
Whether the first text comes before the second in the order of their bytes, in which a text
comes before those that go on behind it.
-/
def isBefore : Text → Text → Bool
  | _, [] => false
  | [], _ :: _ => true
  | a :: first, b :: second => a < b || (a == b && isBefore first second)

/-!
## Search

A search answers with the least offset at which the needle stands.
-/

def search (needle : Text) : Text → Option Nat
  | [] => if needle.isEmpty then some 0 else none
  | b :: rest =>
      if needle.isPrefixOf (b :: rest) then some 0
      else (search needle rest).map (· + 1)

def contains (needle text : Text) : Bool := (search needle text).isSome

/--
The offsets from `start` on at which `needle` stands, where the search goes on
behind each occurrence, so that no two of them overlap.
-/
def occurrencesFrom (needle : Text) (start : Nat) (text : Text) : List Nat :=
  match text with
  | [] => []
  | b :: rest =>
      if needle.isPrefixOf (b :: rest) then
        let width := max needle.length 1
        start :: occurrencesFrom needle (start + width) (rest.drop (width - 1))
      else occurrencesFrom needle (start + 1) rest
  termination_by text.length
  decreasing_by all_goals simp only [List.length_drop, List.length_cons]; omega

def occurrences (needle text : Text) : List Nat := occurrencesFrom needle 0 text

def trimStart (p : UInt8 → Bool) (text : Text) : Text := text.dropWhile p

def trimEnd (p : UInt8 → Bool) (text : Text) : Text :=
  (text.reverse.dropWhile p).reverse

def trim (p : UInt8 → Bool) (text : Text) : Text := trimEnd p (trimStart p text)

/-- The pieces between the separators; there is one more piece than separators. -/
def splitAt (separator : UInt8) : Text → List Text
  | [] => [[]]
  | b :: rest =>
      if b == separator then [] :: splitAt separator rest
      else match splitAt separator rest with
        | [] => [[b]]
        | piece :: pieces => (b :: piece) :: pieces

def splitFirst? (separator : UInt8) (text : Text) : Option (Text × Text) :=
  match text.dropWhile (· != separator) with
  | [] => none
  | _ :: after => some (text.takeWhile (· != separator), after)

/-!
## Lines

Lines are separated by line feeds.  A text that ends with a line feed has an
empty last line in `lines`, and does not have it in `completeLines`.
-/

def lines (text : Text) : List Text := splitAt '\n' text

def completeLines (text : Text) : List Text :=
  let all := lines text
  if all.getLast? = some [] then all.dropLast else all

def startOfLine (text : Text) (offset : Nat) : Nat :=
  offset - ((text.take offset).reverse.takeWhile (· != ('\n' : UInt8))).length

def endOfLine (text : Text) (offset : Nat) : Nat :=
  offset + ((text.drop offset).takeWhile (· != ('\n' : UInt8))).length

def lineHolding (text : Text) (offset : Nat) : Text :=
  text.slice (startOfLine text offset) (endOfLine text offset)

def withoutReturn (line : Text) : Text :=
  if line.getLast? = some ('\r' : UInt8) then line.dropLast else line

end Text

/-! ## Binary search -/

/--
The number of leading elements that come `before` a place, found by halving.
On a list whose elements are not so ordered, the answer is the one that the
halving leads to.
-/
def bisect {α : Type} (before : α → Bool) (list : List α) : Nat :=
  match hd : list.drop (list.length / 2) with
  | [] => 0
  | middle :: rest =>
      if before middle then list.length / 2 + 1 + bisect before rest
      else bisect before (list.take (list.length / 2))
  termination_by list.length
  decreasing_by
    · have h := congrArg List.length hd
      simp at h
      omega
    · have h := congrArg List.length hd
      simp at h
      simp
      omega

end LatexIntegrity
