import LatexIntegrity.Span.Basic
import LatexIntegrity.Markup.LeftContext
import LatexIntegrity.Markup.Environment
import LatexIntegrity.Markup.Group

/-!
Regions are the spans of a document as consecutive pieces of its text.  The
constructs whose bytes stay as they are come in order of precedence.

A construct that a backslash introduces is recognised only where that backslash
is not escaped.  A construct that is not terminated is not recognised at all.
-/

namespace LatexIntegrity

/-! ## Regions -/

structure Region where
  kind : RegionKind
  name : Text
  body : Text
  deriving DecidableEq, Repr

structure Construct where
  length : Nat
  /-- The name of an environment; empty for other constructs. -/
  name : Text := []
  deriving DecidableEq, Repr

/--
Recognises a construct at the head of the remaining text, given what stands
before it.
-/
abbrev Recognizer := LeftContext → Text → Option Construct

namespace Region

def spans (start : Nat) : List Region → List Span
  | [] => []
  | region :: rest =>
      let stop := start + region.body.length
      ⟨start, stop, region.kind, region.name⟩ :: spans stop rest

end Region

/-! ## Constructs -/

def shieldedEnvironments : List Text :=
  ["equation", "equation*", "align", "align*", "gather", "gather*", "math", "displaymath",
    "figure", "figure*", "lstlisting", "tabular", "tabular*", "array"]

def isShieldedEnvironment (name : Text) : Bool := shieldedEnvironments.contains name

namespace Recognizer

def comment : Recognizer
  | _, [] => none
  | context, b :: rest =>
      if b == '%' && !context.escaped then
        some ⟨1 + (rest.takeWhile (· != ('\n' : UInt8))).length, []⟩
      else none

/-! ## Definitions -/

def definitionCommands : List Text :=
  ["newcommand", "renewcommand", "providecommand", "DeclareMathOperator"]

/--
The bytes of adjacent brace and bracket groups up to the end of the last brace
group, or nothing without a brace group.
-/
def definitionArguments? (text : Text) : Option Nat :=
  match text with
  | [] => none
  | b :: rest =>
      if b == '{' then
        match Group.braced? 1 (b :: rest) with
        | none => none
        | some length =>
            match definitionArguments? (rest.drop (length - 1)) with
            | none => some length
            | some more => some (length + more)
      else if b == '[' then
        match Group.optional? (b :: rest) with
        | none => none
        | some length => (definitionArguments? (rest.drop (length - 1))).map (length + ·)
      else none
  termination_by text.length
  decreasing_by all_goals simp only [List.length_drop, List.length_cons]; omega

def newCommand : Recognizer := fun context text =>
  let word := controlWord text
  if !definitionCommands.contains word || context.escaped then none
  else
    let behind := afterControlWord text
    let star := if behind.head? = some ('*' : UInt8) then 1 else 0
    (definitionArguments? (behind.drop star)).map fun arguments =>
      ⟨1 + word.length + star + arguments, []⟩

def isMacroNameByte (b : UInt8) : Bool := Ascii.isLetter b || b == '@'

/-- `\def`, the name that it defines, any parameter text and a brace group. -/
def definition : Recognizer := fun context text =>
  if controlWord text != "def" || context.escaped then none
  else match afterControlWord text with
    | [] => none
    | b :: behind =>
        let name := behind.takeWhile isMacroNameByte
        if b != '\\' || name.isEmpty then none
        else
          let parameters := (behind.drop name.length).takeWhile (· != ('{' : UInt8))
          let head := name.length + parameters.length
          (Group.braced? 1 (behind.drop head)).map fun group => ⟨5 + head + group, []⟩

/-! ## Mathematics -/

def displayMath : Recognizer := fun context text =>
  let fence : Text := "$$"
  if !fence.isPrefixOf text || context.escaped then none
  else (unescapedDistance? fence (context.pushAll fence) (text.drop 2)).map
    fun distance => ⟨distance + 4, []⟩

def isLoneDollar (context : LeftContext) : Text → Bool
  | [] => false
  | b :: rest =>
      b == '$' && !context.dollar && rest.head? != some ('$' : UInt8) && !context.escaped

def inlineMath : Recognizer
  | _, [] => none
  | context, b :: rest =>
      if isLoneDollar context (b :: rest) then
        (distance? isLoneDollar (context.push b) rest).map fun distance => ⟨distance + 2, []⟩
      else none

def fenced (opener closer : Text) : Recognizer := fun context text =>
  if !opener.isPrefixOf text || context.escaped then none
  else (unescapedDistance? closer (context.pushAll opener) (text.drop opener.length)).map
    fun distance => ⟨opener.length + distance + closer.length, []⟩

def parenthesisMath : Recognizer := fenced "\\(" "\\)"

def bracketMath : Recognizer := fenced "\\[" "\\]"

/-! ## Environments and commands -/

/--
A shielded environment up to the nearest delimiter that closes its name.  An
inner environment of the same name therefore closes the outer one.
-/
def environment : Recognizer := fun context text =>
  if context.escaped then none
  else match DelimiterToken.read? text with
    | some ⟨.opening, name⟩ =>
        if !isShieldedEnvironment name then none
        else
          let opener := (DelimiterToken.mk .opening name).source
          let closer := (DelimiterToken.mk .closing name).source
          (Environment.closingDistance? name (context.pushAll opener)
            (text.drop opener.length)).map fun distance =>
              ⟨opener.length + distance + closer.length, name⟩
    | _ => none

def singleArgumentCommands : List Text :=
  ["ref", "eqref", "autoref", "pageref", "cref", "Cref", "label", "url"]

/-- `cite`, followed by lower-case letters only. -/
def isCitationCommand (word : Text) : Bool :=
  ("cite" : Text).isPrefixOf word && (word.drop 4).all Ascii.isLower

def optionalArguments? : Nat → Text → Option Nat
  | 0, _ => some 0
  | count + 1, text =>
      if text.head? = some ('[' : UInt8) then do
        let first ← Group.optional? text
        let others ← optionalArguments? count (text.drop first)
        return first + others
      else some 0

def commandArguments? (word text : Text) : Option Nat :=
  if singleArgumentCommands.contains word then Group.argument? text
  else if isCitationCommand word then do
    let options ← optionalArguments? 2 text
    let argument ← Group.argument? (text.drop options)
    return options + argument
  else if word == "href" then do
    let first ← Group.argument? text
    let second ← Group.argument? (text.drop first)
    return first + second
  else none

def command : Recognizer := fun context text =>
  let word := controlWord text
  if word.isEmpty || context.escaped then none
  else (commandArguments? word (afterControlWord text)).map fun arguments =>
    ⟨1 + word.length + arguments, []⟩

/-! ## Precedence -/

def table : List (RegionKind × Recognizer) :=
  [(.comment, comment), (.definition, newCommand), (.definition, definition),
    (.displayMath, displayMath), (.inlineMath, inlineMath),
    (.delimitedMath, parenthesisMath), (.delimitedMath, bracketMath),
    (.environment, environment), (.command, command)]

def firstConstruct? (context : LeftContext) (text : Text) :
    List (RegionKind × Recognizer) → Option (RegionKind × Construct)
  | [] => none
  | (kind, recognize) :: rest =>
      match recognize context text with
      | some construct => some (kind, construct)
      | none => firstConstruct? context text rest

end Recognizer

def construct? (context : LeftContext) (text : Text) : Option (RegionKind × Construct) :=
  Recognizer.firstConstruct? context text Recognizer.table

end LatexIntegrity
