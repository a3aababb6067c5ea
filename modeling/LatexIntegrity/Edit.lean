import LatexIntegrity.Span.Basic
import LatexIntegrity.Markup.Environment

/-!
Edits of a segmented text.

A draft records edits against the original offsets and refuses those that would
change shielded bytes or overlap an edit recorded before.  Applying a draft
works from the last offset to the first, so that no edit moves another one.
-/

namespace LatexIntegrity

/-- Replaces `length` bytes from `offset` on; an insertion replaces none. -/
structure Edit where
  offset : Nat
  length : Nat
  replacement : Text
  deriving DecidableEq, Repr

namespace Edit

def isInsertion (edit : Edit) : Bool := edit.length == 0

def splits (point start length : Nat) : Bool := start < point && point < start + length

def conflicts (edit : Edit) (offset length : Nat) : Bool :=
  if length == 0 then splits offset edit.offset edit.length
  else if edit.isInsertion then splits edit.offset offset length
  else offset < edit.offset + edit.length && edit.offset < offset + length

def apply (edit : Edit) (text : Text) : Text :=
  text.take edit.offset ++ edit.replacement ++ text.drop (edit.offset + edit.length)

/--
Whether the first of two numbered edits is applied before the second: a later
offset first; at one offset the replacement before the insertions, and among
those the one recorded last before the others.
-/
def precedes (first second : Edit × Nat) : Bool :=
  if first.1.offset ≠ second.1.offset then second.1.offset < first.1.offset
  else if first.1.isInsertion != second.1.isInsertion then !first.1.isInsertion
  else second.2 ≤ first.2

def applicationOrder (edits : List Edit) : List Edit :=
  (edits.zipIdx.mergeSort precedes).map (·.1)

end Edit

structure Draft where
  text : Text
  spans : List Span
  edits : List Edit := []
  deriving DecidableEq, Repr

namespace Draft

/--
Whether the bytes may be replaced.  A replacement lies in one plain span; an
insertion lies in a plain span, at the start of a span or at the end of the text.
-/
def isReplaceable (draft : Draft) (offset length : Nat) : Bool :=
  if draft.text.length < offset || draft.text.length - offset < length then false
  else if length == 0 then
    offset == draft.text.length ||
      (Span.findAt? draft.spans offset).any fun span =>
        span.kind == .plain || span.start == offset
  else
    (Span.findAt? draft.spans offset).any fun span =>
      span.kind == .plain && offset + length ≤ span.stop

def isTaken (draft : Draft) (offset length : Nat) : Bool :=
  draft.edits.any (·.conflicts offset length)

def admits (draft : Draft) (offset length : Nat) : Bool :=
  draft.isReplaceable offset length && !draft.isTaken offset length

def record (draft : Draft) (edit : Edit) : Draft :=
  { draft with edits := draft.edits ++ [edit] }

def replace? (draft : Draft) (offset length : Nat) (replacement : Text) : Option Draft :=
  if draft.admits offset length then some (draft.record ⟨offset, length, replacement⟩)
  else none

def isLineStart (draft : Draft) (offset : Nat) : Bool :=
  offset ≤ draft.text.length &&
    (offset == 0 || draft.text[offset - 1]? == some ('\n' : UInt8))

def isInFigure (draft : Draft) (offset : Nat) : Bool :=
  (Span.findAt? draft.spans offset).any (·.isEnvironment Environment.isFigure)

/--
The draft with an insertion at the start of a line.  Unlike other insertions it
is also accepted inside a figure environment.
-/
def insertAtLine? (draft : Draft) (offset : Nat) (insertion : Text) : Option Draft :=
  if draft.isLineStart offset && !draft.isTaken offset 0 &&
      (draft.isReplaceable offset 0 || draft.isInFigure offset) then
    some (draft.record ⟨offset, 0, insertion⟩)
  else none

def apply (draft : Draft) : Text :=
  (Edit.applicationOrder draft.edits).foldl (fun text edit => edit.apply text) draft.text

end Draft

end LatexIntegrity
