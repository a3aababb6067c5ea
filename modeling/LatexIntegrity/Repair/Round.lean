import LatexIntegrity.Log.Message
import LatexIntegrity.Repair.Tags
import LatexIntegrity.Repair.Closers
import LatexIntegrity.Repair.Figures
import LatexIntegrity.Source.Disk

/-!
Rounds of repair.

A round replaces HTML tags, balances environments and comments out missing
figures, in this order.  It also says which of the issues that it was given are
still open.  Rounds are repeated while they change something, up to a bound.
-/

namespace LatexIntegrity

structure FigureOptions where
  /-- Extensions that a figure may have besides none. -/
  extensions : List Text := [".png", ".pdf", ".jpg", ".jpeg", ".eps"]
  /-- What is written in front of a line whose figure is missing. -/
  marker : Text := "% FIXME: missing file - "
  deriving DecidableEq, Repr

structure RoundReport where
  text : Text
  fixes : List Fix
  /-- The issues that are still open. -/
  residual : List Issue
  deriving DecidableEq, Repr

def RoundReport.countApplied (report : RoundReport) : Nat := Fix.countApplied report.fixes

def RoundReport.changedNothing (report : RoundReport) : Bool := report.countApplied == 0

namespace Repair

/-! ## Open issues -/

/--
Whether a message about a missing file quotes the path of a figure, or that path
with an extension behind it.
-/
def quotesFigure (message path : Text) : Bool :=
  match Log.quoted? message with
  | none => false
  | some name =>
      name == path ||
        (path.length + 1 < name.length && (path ++ ".").isPrefixOf name &&
          !(name.drop path.length).contains Path.separator)

def staysOpen (paths : List Text) (issue : Issue) : Bool :=
  issue.kind != .environmentImbalance &&
    !(issue.kind == .missingFile && paths.any (quotesFigure issue.message))

/--
The report of a round whose last pass is `figures`.  Imbalances are taken from the
text that the round leaves, not from the issues that it was given.
-/
def report (issues : List Issue) (text : Text) (fixes : List Fix) (figures : FigurePass) :
    RoundReport :=
  let fixes := fixes ++ figures.fixes
  let repaired := if Fix.countApplied fixes = 0 then text else figures.draft.apply
  { text := repaired
    fixes := fixes
    residual := issues.filter (staysOpen figures.paths) ++ balanceIssues repaired }

/-! ## One round -/

def figurePaths (options : FigureOptions) (directory path : Text) : List Text :=
  let full := Path.resolve directory path
  full :: options.extensions.map (full ++ ·)

def missingFigures {m : Type → Type} [Monad m] (disk : Disk m) (options : FigureOptions)
    (directory : Text) : List FigureReference → m (List FigureReference)
  | [] => pure []
  | figure :: rest => do
      let found ← disk.anyPresent (figurePaths options directory figure.path)
      let others ← missingFigures disk options directory rest
      return if found then others else figure :: others

def repairMarkup (text : Text) : Text × List Fix :=
  let (tagless, tagFixes) := replaceTags text
  let (balanced, closerFixes) := balanceEnvironments tagless
  (balanced, tagFixes ++ closerFixes)

/--
Repairs a text once.  Figures are looked up from `directory` on.  Without a list
of issues, the round starts from the imbalances of the text.
-/
def round {m : Type → Type} [Monad m] (disk : Disk m) (options : FigureOptions)
    (directory : Text) (issues : Option (List Issue)) (text : Text) : m RoundReport := do
  let (balanced, fixes) := repairMarkup text
  let spans := segment balanced
  let missing ← missingFigures disk options directory (figureReferences balanced spans)
  let figures := commentOutFigures options.marker balanced spans missing
  return report (issues.getD (balanceIssues text)) text fixes figures

/-! ## Repeated rounds -/

/--
The reports of exactly `count` rounds, each of which is given the text and the open
issues of the one before.
-/
def reports {m : Type → Type} [Monad m] (disk : Disk m) (options : FigureOptions)
    (directory : Text) (issues : Option (List Issue)) (text : Text) :
    Nat → m (List RoundReport)
  | 0 => pure []
  | count + 1 => do
      let report ← round disk options directory issues text
      let later ← reports disk options directory (some report.residual) report.text count
      return report :: later

structure Progress where
  text : Text
  issues : Option (List Issue)
  fixes : List Fix
  residual : List Issue
  deriving DecidableEq, Repr

def Progress.start (text : Text) (issues : Option (List Issue)) : Progress :=
  ⟨text, issues, [], []⟩

/--
At most `bound` further rounds.  The first round that applies no fix is the last
one, and its fixes are listed only if it is the first of all.
-/
def repeatFrom {m : Type → Type} [Monad m] (disk : Disk m) (options : FigureOptions)
    (directory : Text) (isFirst : Bool) (progress : Progress) : Nat → m Progress
  | 0 => pure progress
  | bound + 1 => do
      let report ← round disk options directory progress.issues progress.text
      let fixes :=
        if isFirst || !report.changedNothing then Fix.merge progress.fixes report.fixes
        else progress.fixes
      if report.changedNothing then
        return { progress with fixes := fixes, residual := report.residual }
      else
        repeatFrom disk options directory false
          ⟨report.text, some report.residual, fixes, report.residual⟩ bound

def repeatRounds {m : Type → Type} [Monad m] (disk : Disk m) (options : FigureOptions)
    (directory : Text) (issues : Option (List Issue)) (bound : Nat) (text : Text) :
    m Progress :=
  repeatFrom disk options directory true (.start text issues) bound

end Repair

end LatexIntegrity
