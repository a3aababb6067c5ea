import LatexIntegrity.Span.Basic
import LatexIntegrity.Text.Ascii

/-!
A list of spans is a partition of a document if its spans are not empty, follow
one another without a gap from the start of the document to its end, and no two
plain spans are adjacent.  A check names the first condition that fails.
-/

namespace LatexIntegrity

inductive PartitionFault where
  | missing
  | misplaced (index start expected : Nat)
  | empty (index : Nat)
  | unmerged (index : Nat)
  | wrongEnd (stop length : Nat)
  deriving DecidableEq, Repr

def PartitionFault.message : PartitionFault → Text
  | .missing => "empty segmentation for non-empty document"
  | .misplaced index start expected =>
      "span " ++ Decimal.render index ++ " starts at " ++ Decimal.render start ++
        ", expected " ++ Decimal.render expected
  | .empty index => "span " ++ Decimal.render index ++ " is empty"
  | .unmerged index =>
      "plain spans " ++ Decimal.render (index - 1) ++ " and " ++ Decimal.render index ++
        " are not merged"
  | .wrongEnd stop length =>
      "segmentation ends at " ++ Decimal.render stop ++ ", document length is " ++
        Decimal.render length

/--
Checks the spans from number `index` on, which are to begin at `expected`.
`plainBefore` says whether a plain span comes directly before them.
-/
def partitionFaultFrom? (length index expected : Nat) (plainBefore : Bool) :
    List Span → Option PartitionFault
  | [] => if expected = length then none else some (.wrongEnd expected length)
  | span :: rest =>
      if span.start ≠ expected then some (.misplaced index span.start expected)
      else if span.stop ≤ span.start then some (.empty index)
      else if plainBefore && span.kind == .plain then some (.unmerged index)
      else partitionFaultFrom? length (index + 1) span.stop (span.kind == .plain) rest

def partitionFault? (spans : List Span) (length : Nat) : Option PartitionFault :=
  if spans.isEmpty then
    if length = 0 then none else some .missing
  else partitionFaultFrom? length 0 0 false spans

end LatexIntegrity
