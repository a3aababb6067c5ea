import LatexIntegrity.Region.Scan
import LatexIntegrity.Report.Issue

/-!
Balance of environments.

The delimiters that count are those outside comments and definitions.  An
environment name is balanced if it is opened as often as it is closed; the order
of the delimiters does not matter.
-/

namespace LatexIntegrity

namespace Balance

def isCounted (span : Span) : Bool :=
  span.kind != .comment && span.kind != .definition

/--
The delimiters that begin before `stop` in the text from `position` on.  Behind a
backslash that begins no delimiter, the next byte is skipped.
-/
def delimitersFrom (stop : Nat) (context : LeftContext) (position : Nat) (text : Text) :
    List Delimiter :=
  match text with
  | [] => []
  | b :: rest =>
      if stop ≤ position then []
      else if b == '\\' then
        match Delimiter.read? context position (b :: rest) with
        | some delimiter =>
            let length := delimiter.source.length
            delimiter ::
              delimitersFrom stop (context.pushAll ((b :: rest).take length))
                (position + length) (rest.drop (length - 1))
        | none =>
            delimitersFrom stop (context.pushAll (b :: rest.take 1)) (position + 2)
              (rest.drop 1)
      else delimitersFrom stop (context.push b) (position + 1) rest
  termination_by text.length
  decreasing_by all_goals simp only [List.length_drop, List.length_cons]; omega

def delimitersIn (text : Text) (span : Span) : List Delimiter :=
  delimitersFrom span.stop (.after (text.take span.start)) span.start (text.drop span.start)

def delimiters (text : Text) (spans : List Span) : List Delimiter :=
  (spans.filter isCounted).flatMap (delimitersIn text)

/-! ## Counting -/

structure Count where
  opened : Nat
  closed : Nat
  last : Nat
  deriving DecidableEq, Repr

def Count.isBalanced (count : Count) : Bool := count.opened == count.closed

def Count.none : Count := ⟨0, 0, 0⟩

def Count.add (count : Count) (delimiter : Delimiter) : Count :=
  match delimiter.side with
  | .opening => ⟨count.opened + 1, count.closed, delimiter.position⟩
  | .closing => ⟨count.opened, count.closed + 1, delimiter.position⟩

abbrev Tally := List (Text × Count)

namespace Tally

def add (delimiter : Delimiter) : Tally → Tally
  | [] => [(delimiter.name, Count.none.add delimiter)]
  | (name, count) :: rest =>
      if delimiter.name = name then (name, count.add delimiter) :: rest
      else if Text.isBefore delimiter.name name then
        (delimiter.name, Count.none.add delimiter) :: (name, count) :: rest
      else (name, count) :: add delimiter rest

def ofDelimiters (delimiters : List Delimiter) : Tally :=
  delimiters.foldl (fun tally delimiter => tally.add delimiter) []

end Tally

def issues (delimiters : List Delimiter) : List Issue :=
  ((Tally.ofDelimiters delimiters).filter fun entry => !entry.2.isBalanced).map
    fun entry => .imbalance entry.1 entry.2.opened entry.2.closed entry.2.last

end Balance

def balanceIssues (text : Text) : List Issue :=
  Balance.issues (Balance.delimiters text (segment text))

end LatexIntegrity
