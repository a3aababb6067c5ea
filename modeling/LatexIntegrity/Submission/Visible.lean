import LatexIntegrity.Region.Scan
import LatexIntegrity.Text.Ascii
import LatexIntegrity.Text.Utf8
import LatexIntegrity.Markup.Group

/-!
The part of a document that counts, which is everything outside comments, with
its section headings, and excerpts of it that fit into a message: on one line,
with single spaces, and not longer than a bound.
-/

namespace LatexIntegrity.Submission

/-! ## Comments -/

def visibleBody (region : Region) : Text :=
  if region.kind == .comment then List.replicate region.body.length ' ' else region.body

/-- The text with every comment blanked.  Offsets and lines stay as they are. -/
def blankComments (text : Text) : Text := (regions text).flatMap visibleBody

def isStandalone (text : Text) : Bool :=
  Text.contains "\\begin\x7bdocument\x7d" (blankComments text)

/-! ## Excerpts -/

def isGap (b : UInt8) : Bool := Ascii.isBlank b || b == '\n' || b == '\r'

def collapseGaps : Text → Text
  | [] => []
  | b :: rest =>
      if isGap b then
        if (rest.head?.map isGap).getD false then collapseGaps rest
        else ' ' :: collapseGaps rest
      else b :: collapseGaps rest

/-- The largest offset up to `limit` that is not inside a code point. -/
def boundaryBefore (text : Text) : Nat → Nat
  | 0 => 0
  | limit + 1 =>
      if ((text[limit + 1]?).map Utf8.isContinuation).getD false then
        boundaryBefore text limit
      else limit + 1

def shorten (limit : Nat) (text : Text) : Text :=
  if limit < text.length then text.take (boundaryBefore text limit) ++ "..." else text

def excerpt (limit : Nat) (text : Text) : Text :=
  shorten limit (collapseGaps (Text.trim isGap text))

def excerptLength : Nat := 60

def authorExcerptLength : Nat := 50

/-! ## Headings -/

def mandatoryArgument? (behind : Text) : Option Text := do
  let unstarred := if behind.head? = some ('*' : UInt8) then behind.drop 1 else behind
  let start := unstarred.dropWhile Ascii.isBlank
  let options ← if start.head? = some ('[' : UInt8) then Group.optional? start else some 0
  let argument := start.drop options
  let length ← (Group.braced? 4 argument).or (Group.argument? argument)
  return Group.body length argument

def argumentOf? (text word : Text) (offset : Nat) : Option Text :=
  mandatoryArgument? (text.drop (offset + 1 + word.length))

def commandArguments (word text : Text) : List (Nat × Text) :=
  (commandOffsets word text).filterMap fun offset =>
    (argumentOf? text word offset).map (offset, ·)

structure Heading where
  title : Text
  offset : Nat
  deriving DecidableEq, Repr

def headings (text : Text) : List Heading :=
  (commandArguments "section" (blankComments text)).map fun entry =>
    ⟨Text.trim isGap entry.2, entry.1⟩

end LatexIntegrity.Submission
