import LatexIntegrity.Report.Issue
import LatexIntegrity.Submission.Visible

/-!
What a submission lacks: words that mark unfinished work, and sections that it
must have or is expected to have.
-/

namespace LatexIntegrity.Submission

/-! ## Unfinished work -/

def todoMarkers : List Text := ["TODO", "TBD", "FIXME", "XXX", "HACK"]

def standsAlone (text : Text) (offset length : Nat) : Bool :=
  (offset == 0 || !((text[offset - 1]?).map Ascii.isAlphanumeric).getD false) &&
    !((text[offset + length]?).map Ascii.isAlphanumeric).getD false

/-- The offsets of a marker as a whole word, in either case. -/
def markerOffsets (text marker : Text) : List Nat :=
  let folded := Ascii.lower text
  (Text.occurrences (Ascii.lower marker) folded).filter fun offset =>
    standsAlone folded offset marker.length

def markerHits (text : Text) : List (Nat × Text) :=
  (todoMarkers.flatMap fun marker => (markerOffsets text marker).map (·, marker)).mergeSort
    fun first second =>
      first.1 < second.1 || (first.1 == second.1 && !Text.isBefore second.2 first.2)

def markerIssue (visible : Text) (hit : Nat × Text) : Issue :=
  { kind := .todoMarker
    severity := .warning
    message := hit.2 ++ " marker: " ++ excerpt excerptLength (Text.lineHolding visible hit.1)
    offset := some hit.1
    key := hit.2 }

def markerIssues (text : Text) : List Issue :=
  let visible := blankComments text
  (markerHits visible).map (markerIssue visible)

/-! ## Sections -/

structure UsualSection where
  phrase : Text
  name : Text
  deriving DecidableEq, Repr

def usualSections : List UsualSection :=
  [⟨"related work", "Related Work"⟩, ⟨"method", "Method"⟩, ⟨"experiment", "Experiment"⟩,
    ⟨"result", "Result"⟩, ⟨"conclusion", "Conclusion"⟩]

def sectionIssue (severity : Severity) (message name : Text) : Issue :=
  { kind := .missingSection, severity := severity, message := message, key := name }

def missingRequired (name : Text) : Issue :=
  sectionIssue .error ("missing required section: " ++ name) name

def missingExpected (expected : UsualSection) : Issue :=
  sectionIssue .note ("missing expected section: " ++ expected.name) expected.name

def abstractIsSection : Issue :=
  sectionIssue .note "abstract is a section, not an abstract environment" "Abstract"

/--
Missing required sections are errors, missing expected ones are notes.  An
abstract may be an environment or a section of that name; other sections are
known by a phrase in their title.
-/
def sectionIssues (text : Text) : List Issue :=
  let titles := (headings text).map (Ascii.lower ·.title)
  let isTitled (phrase : Text) : Bool := titles.any (Text.contains phrase)
  let hasEnvironment := Text.contains "\\begin\x7babstract\x7d" (blankComments text)
  let hasSection := titles.contains "abstract"
  (if !hasEnvironment && !hasSection then [missingRequired "Abstract"] else []) ++
    (if isTitled "introduction" then [] else [missingRequired "Introduction"]) ++
    (if !hasEnvironment && hasSection then [abstractIsSection] else []) ++
    (usualSections.filter (!isTitled ·.phrase)).map missingExpected

end LatexIntegrity.Submission
