import LatexIntegrity.Report.Issue
import LatexIntegrity.Submission.Visible

/-!
Venues, of which some ask for anonymous submissions, and traces of the authors
in a submission.
-/

namespace LatexIntegrity

/-! ## Venues -/

structure Venue where
  name : Text
  /-- Whether submissions must not name their authors. -/
  isAnonymous : Bool
  deriving DecidableEq, Repr

namespace Venue

def known : List Venue :=
  [⟨"neurips", true⟩, ⟨"icml", true⟩, ⟨"iclr", true⟩, ⟨"aaai", true⟩, ⟨"acl", true⟩,
    ⟨"emnlp", true⟩, ⟨"cvpr", true⟩, ⟨"icbinb", true⟩, ⟨"arxiv", false⟩]

def find? (name : Text) : Option Venue := known.find? (·.name == name)

end Venue

namespace Submission

/-! ## Authors -/

def anonymityIssue (message : Text) (offset : Nat) : Issue :=
  { kind := .anonymization, severity := .warning, message := message, offset := some offset }

def authorIssue? (visible : Text) : Option Issue := do
  let (offset, names) ← (commandArguments "author" visible).head?
  let folded := Ascii.lower names
  if Text.contains "anonymous" folded || Text.contains "author" folded then none
  else
    some (anonymityIssue
      ("author field names the authors: " ++ excerpt authorExcerptLength names) offset)

/-! ## Citations of earlier work -/

/-- Words in sequence, where each slot lists the alternatives for one word. -/
abbrev Phrase := List (List Text)

def selfCitations : List Phrase :=
  [[["our"], ["previous", "prior", "earlier", "recent"], ["work", "paper", "study"]],
    [["we"], ["previously", "earlier", "recently"], ["proposed", "showed", "demonstrated"]],
    [["in"], ["our"], ["previous", "prior", "earlier"], ["work", "paper"]]]

def slotLength? (alternatives : List Text) (text : Text) : Option Nat :=
  (alternatives.find? (·.isPrefixOf text)).map (·.length)

def furtherLength? : Phrase → Text → Option Nat
  | [], _ => some 0
  | slot :: slots, text => do
      let gap := (text.takeWhile isGap).length
      if gap = 0 then none
      else
        let word ← slotLength? slot (text.drop gap)
        let others ← furtherLength? slots (text.drop (gap + word))
        return gap + word + others

/-- The bytes of a phrase at the head of a text; its last word may go on. -/
def phraseLength? : Phrase → Text → Option Nat
  | [], _ => some 0
  | slot :: slots, text => do
      let word ← slotLength? slot text
      let others ← furtherLength? slots (text.drop word)
      return word + others

/-- The first place of a phrase where a word may begin, and its bytes. -/
def findPhrase? (phrase : Phrase) (afterLetter : Bool) (offset : Nat) :
    Text → Option (Nat × Nat)
  | [] => none
  | b :: rest =>
      match if afterLetter then none else phraseLength? phrase (b :: rest) with
      | some length => some (offset, length)
      | none => findPhrase? phrase (Ascii.isLetter b) (offset + 1) rest

def selfCitationIssue? (visible : Text) (phrase : Phrase) : Option Issue :=
  (findPhrase? phrase false 0 (Ascii.lower visible)).map fun (offset, length) =>
    anonymityIssue
      ("possible self-citation: \"" ++
        excerpt excerptLength ((visible.drop offset).take length) ++ "\"") offset

/-! ## Links -/

structure RepositoryHost where
  address : Text
  name : Text
  deriving DecidableEq, Repr

def repositoryHosts : List RepositoryHost :=
  [⟨"github.com/", "GitHub"⟩, ⟨"gitlab.com/", "GitLab"⟩]

def isOwnerByte (b : UInt8) : Bool := Ascii.isAlphanumeric b || b == '_' || b == '-'

def repositoryLength? (address text : Text) : Option Nat :=
  let behind := text.drop address.length
  let owner := (behind.takeWhile isOwnerByte).length
  if owner != 0 && (behind.drop owner).head? = some ('/' : UInt8) then
    some (address.length + owner + 1)
  else none

def repositoryIssue? (visible : Text) (host : RepositoryHost) : Option Issue :=
  let folded := Ascii.lower visible
  (Text.occurrences host.address folded).findSome? fun offset =>
    (repositoryLength? host.address (folded.drop offset)).map fun length =>
      anonymityIssue
        (host.name ++ " link found: " ++ (visible.drop offset).take length) offset

def neutralHosts : List Text := ["arxiv", "doi", "paperswithcode"]

def webHost? (target : Text) : Option Text :=
  if Text.hasAt target 0 "https://" then some (target.drop 8)
  else if Text.hasAt target 0 "http://" then some (target.drop 7)
  else none

def isRevealing (target : Text) : Bool :=
  match webHost? (Ascii.lower (Text.trim isGap target)) with
  | some host => !neutralHosts.any (·.isPrefixOf host)
  | none => false

def urlIssue? (visible : Text) : Option Issue :=
  ((commandArguments "url" visible).find? (isRevealing ·.2)).map fun (offset, target) =>
    anonymityIssue ("non-anonymous URL found: " ++ excerpt excerptLength target) offset

/-! ## Acknowledgments -/

def acknowledgmentIssue? (text : Text) : Option Issue :=
  ((headings text).find? fun heading =>
    Text.hasAt (Ascii.lower heading.title) 0 "acknowledg").map fun heading =>
      anonymityIssue "acknowledgments section present; remove it for anonymous review"
        heading.offset

def anonymityIssues (text : Text) : List Issue :=
  let visible := blankComments text
  (authorIssue? visible).toList ++
    selfCitations.filterMap (selfCitationIssue? visible) ++
    repositoryHosts.filterMap (repositoryIssue? visible) ++
    (urlIssue? visible).toList ++
    (acknowledgmentIssue? text).toList

end Submission

end LatexIntegrity
