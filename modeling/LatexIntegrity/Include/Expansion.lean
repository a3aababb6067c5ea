import LatexIntegrity.Include.Command
import LatexIntegrity.Report.Issue
import LatexIntegrity.Source.Document

/-!
A document in which the files that it includes take the place of the commands.

The expanded text is a sequence of fragments of the documents that it comes from,
so that each of its offsets is traced back to a document and an offset there.
-/

namespace LatexIntegrity

structure ResolvedInput where
  command : InputCommand
  document : Option Document
  deriving DecidableEq, Repr

structure Fragment where
  start : Nat
  document : Document
  /-- The offset in the document. -/
  source : Nat
  deriving DecidableEq, Repr

structure Expansion where
  main : Document
  text : Text := []
  fragments : List Fragment := []
  /-- How many commands have been replaced. -/
  included : Nat := 0
  deriving DecidableEq, Repr

namespace Expansion

def append (expansion : Expansion) (document : Document) (start stop : Nat) : Expansion :=
  { expansion with
    text := expansion.text ++ document.text.slice start stop
    fragments := expansion.fragments ++ [⟨expansion.text.length, document, start⟩] }

/--
Appends the main document from `cursor` on, with its inputs put in.  An input that
has no document, begins before the cursor or ends beyond the main document is
passed over.
-/
def spliceFrom (cursor : Nat) (expansion : Expansion) : List ResolvedInput → Expansion
  | [] => expansion.append expansion.main cursor expansion.main.size
  | ⟨command, some document⟩ :: rest =>
      if command.start < cursor || expansion.main.size < command.stop then
        spliceFrom cursor expansion rest
      else
        let spliced :=
          (expansion.append expansion.main cursor command.start).append document 0
            document.size
        spliceFrom command.stop { spliced with included := spliced.included + 1 } rest
  | ⟨_, none⟩ :: rest => spliceFrom cursor expansion rest

def ofInputs (main : Document) (resolved : List ResolvedInput) : Expansion :=
  spliceFrom 0 { main := main } resolved

/-- The document and the offset in it that an expanded offset comes from. -/
def origin (expansion : Expansion) (offset : Nat) : Document × Nat :=
  let place := min offset expansion.text.length
  let count := bisect (·.start ≤ place) expansion.fragments
  match expansion.fragments[count - 1]? with
  | some fragment => (fragment.document, fragment.source + (place - fragment.start))
  | none => (expansion.main, place)

def localize (expansion : Expansion) (issue : Issue) : Issue × Document :=
  match issue.offset with
  | none => (issue, expansion.main)
  | some offset =>
      let (document, place) := expansion.origin offset
      ({ issue with offset := some place }, document)

end Expansion

end LatexIntegrity
