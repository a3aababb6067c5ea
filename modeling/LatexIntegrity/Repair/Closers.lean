import LatexIntegrity.Balance
import LatexIntegrity.Edit
import LatexIntegrity.Report.Issue

/-!
Missing environment closers are appended and surplus ones are removed.

The closers of one environment name that are missing go to the end of the
document, one on each line, behind which the white space of a plain end is
dropped.  Of surplus closers, the last ones in plain text are removed.
-/

namespace LatexIntegrity.Repair

structure CloserPass where
  draft : Draft
  appendix : Text
  fixes : List Fix
  deriving DecidableEq, Repr

namespace CloserPass

def added (name : Text) : Fix :=
  { name := "add_end_" ++ name, description := "Added missing " ++ Environment.closer name }

def removed (name : Text) : Fix :=
  { name := "remove_end_" ++ name
    description := "Removed extra " ++ Environment.closer name }

def kept (name : Text) : Fix :=
  { name := "remove_end_" ++ name
    description := "Extra " ++ Environment.closer name ++ " lies inside a protected region"
    applied := false }

def append (pass : CloserPass) (name : Text) (count : Nat) : CloserPass :=
  { pass with
    appendix := pass.appendix ++ (List.replicate count ("\n" ++ Environment.closer name)).flatten
    fixes := pass.fixes ++ List.replicate count (added name) }

/--
Removes up to `surplus` of the delimiters, in the order given, where that is
allowed.  The answer holds how many of them could not be removed.
-/
def removeFirst (length : Nat) : Nat → Draft → List Delimiter → Draft × Nat
  | surplus, draft, [] => (draft, surplus)
  | 0, draft, _ => (draft, 0)
  | surplus + 1, draft, delimiter :: rest =>
      match draft.replace? delimiter.position length [] with
      | some shorter => removeFirst length surplus shorter rest
      | none => removeFirst length (surplus + 1) draft rest

def remove (pass : CloserPass) (delimiters : List Delimiter) (name : Text)
    (surplus : Nat) : CloserPass :=
  let closers := delimiters.filter fun delimiter =>
    delimiter.side == .closing && delimiter.name == name
  let (draft, left) :=
    removeFirst (Environment.closer name).length surplus pass.draft closers.reverse
  { pass with
    draft := draft
    fixes :=
      pass.fixes ++ List.replicate (surplus - left) (removed name) ++
        List.replicate left (kept name) }

def balance (delimiters : List Delimiter) (pass : CloserPass) (entry : Text × Balance.Count) :
    CloserPass :=
  let (name, count) := entry
  if count.closed < count.opened then pass.append name (count.opened - count.closed)
  else pass.remove delimiters name (count.closed - count.opened)

def contentEnd (text : Text) (spans : List Span) : Nat :=
  match spans.getLast? with
  | some span =>
      if span.kind == .plain then
        span.start + (Text.trimEnd Ascii.isSpace (text.drop span.start)).length
      else text.length
  | none => text.length

def finish (pass : CloserPass) : Draft :=
  if pass.appendix.isEmpty then pass.draft
  else
    let draft := pass.draft
    let offset := contentEnd draft.text draft.spans
    (draft.replace? offset (draft.text.length - offset) (pass.appendix ++ "\n")).getD draft

end CloserPass

def balanceEnvironments (text : Text) : Text × List Fix :=
  let spans := segment text
  let delimiters := Balance.delimiters text spans
  let pass := (Balance.Tally.ofDelimiters delimiters).foldl (CloserPass.balance delimiters)
    ⟨{ text := text, spans := spans }, [], []⟩
  (pass.finish.apply, pass.fixes)

end LatexIntegrity.Repair
