import LatexIntegrity.Submission.Visible

/-!
Counts of what a document holds outside comments.
-/

namespace LatexIntegrity.Submission

/-! ## Words -/

def controlLength (behind : Text) : Nat :=
  let letters := (behind.takeWhile Ascii.isLetter).length
  if letters = 0 then 1 else letters

def separatesWords (b : UInt8) : Bool := isGap b || b == '{' || b == '}' || b == '~'

/--
The words that begin in a text, where `goesOn` says whether the text goes on with
a word.  Control words and symbols separate words and are none.
-/
def wordCountFrom (goesOn : Bool) (text : Text) : Nat :=
  match text with
  | [] => 0
  | b :: rest =>
      if b == '\\' then wordCountFrom false (rest.drop (controlLength rest))
      else if separatesWords b then wordCountFrom false rest
      else (if goesOn then 0 else 1) + wordCountFrom true rest
  termination_by text.length
  decreasing_by all_goals simp only [List.length_drop, List.length_cons]; omega

def wordCount (text : Text) : Nat := wordCountFrom false text

/-! ## Elements -/

inductive Element where
  | citation
  | figure
  | table
  | equation
  deriving DecidableEq, Repr

def Element.ofEnvironment? (name : Text) : Option Element :=
  if Environment.isFigure name then some .figure
  else if name == "table" || name == "table*" then some .table
  else if Text.hasAt name 0 "equation" || Text.hasAt name 0 "align" then some .equation
  else none

def startsCitation (text : Text) : Bool :=
  let behind := afterControlWord text
  let unstarred := if behind.head? = some ('*' : UInt8) then behind.drop 1 else behind
  Recognizer.isCitationCommand (controlWord text) &&
    (unstarred.head? = some ('{' : UInt8) || unstarred.head? = some ('[' : UInt8))

def Element.read? (context : LeftContext) (text : Text) : Option Element :=
  if context.escaped then none
  else match DelimiterToken.read? text with
    | some ⟨.opening, name⟩ => ofEnvironment? name
    | some ⟨.closing, _⟩ => none
    | none => if startsCitation text then some .citation else none

def elementsFrom (context : LeftContext) : Text → List Element
  | [] => []
  | b :: rest =>
      (Element.read? context (b :: rest)).toList ++ elementsFrom (context.push b) rest

/-! ## Statistics -/

structure Statistics where
  words : Nat
  citations : Nat
  figures : Nat
  tables : Nat
  equations : Nat
  sections : List Heading
  deriving DecidableEq, Repr

def plainWords (region : Region) : Nat :=
  if region.kind == .plain then wordCount region.body else 0

def statistics (text : Text) : Statistics :=
  let visible := blankComments text
  let elements := elementsFrom .initial visible
  { words := (regions visible).foldl (fun total region => total + plainWords region) 0
    citations := elements.count .citation
    figures := elements.count .figure
    tables := elements.count .table
    equations := elements.count .equation
    sections := headings text }

end LatexIntegrity.Submission
