import LatexIntegrity.Edit
import LatexIntegrity.Region.Scan
import LatexIntegrity.Report.Issue
import LatexIntegrity.Text.Basic

/-!
Lines that include a figure whose file is missing are commented out.

A marker goes in front of such a line, which itself stays as it is.  Figures
count in plain text and in figure environments.  A line that opens or closes an
environment is left alone, since commenting it out would change the balance.
-/

namespace LatexIntegrity.Repair

structure FigureReference where
  path : Text
  offset : Nat
  deriving DecidableEq, Repr

namespace FigureReference

def read? (context : LeftContext) (text : Text) : Option (Text × Nat) :=
  let command : Text := "includegraphics"
  if context.escaped || controlWord text != command then none
  else do
    let behind := afterControlWord text
    let options ←
      if behind.head? = some ('[' : UInt8) then Group.optional? behind else some 0
    let argument ← Group.argument? (behind.drop options)
    let path := Group.body argument (behind.drop options)
    if path.isEmpty then none
    else some (path, 1 + command.length + options + argument)

def isEligible (spans : List Span) (offset : Nat) : Bool :=
  (Span.findAt? spans offset).any fun span =>
    span.kind == .plain || span.isEnvironment Environment.isFigure

def listFrom (spans : List Span) (context : LeftContext) (offset : Nat) (text : Text) :
    List FigureReference :=
  match text with
  | [] => []
  | b :: rest =>
      match (read? context (b :: rest)).filter fun _ => isEligible spans offset with
      | some (path, length) =>
          ⟨path, offset⟩ ::
            listFrom spans (context.pushAll ((b :: rest).take length)) (offset + length)
              (rest.drop (length - 1))
      | none => listFrom spans (context.push b) (offset + 1) rest
  termination_by text.length
  decreasing_by all_goals simp only [List.length_drop, List.length_cons]; omega

end FigureReference

def figureReferences (text : Text) (spans : List Span) : List FigureReference :=
  FigureReference.listFrom spans .initial 0 text

/-! ## Commenting out -/

structure FigurePass where
  draft : Draft
  fixes : List Fix
  /-- The paths that are commented out. -/
  paths : List Text
  /-- The offsets of the lines that have a marker. -/
  marked : List Nat
  deriving DecidableEq, Repr

namespace FigurePass

def figureFix : Text := "comment_missing_figure"

def commented (path : Text) : Fix :=
  { name := figureFix, description := "Commented out missing figure: " ++ path }

def leftInPlace (path reason : Text) : Fix :=
  { name := figureFix
    description := "Missing figure " ++ path ++ " left in place: " ++ reason
    applied := false }

def isCommentLine (line : Text) : Bool :=
  (Text.trimStart Ascii.isSpace line).head? == some ('%' : UInt8)

def holdsDelimiter (line : Text) : Bool :=
  Text.contains "\\begin\x7b" line || Text.contains "\\end\x7b" line

def record (pass : FigurePass) (path : Text) : FigurePass :=
  { pass with fixes := pass.fixes ++ [commented path], paths := pass.paths ++ [path] }

def leave (pass : FigurePass) (path reason : Text) : FigurePass :=
  { pass with fixes := pass.fixes ++ [leftInPlace path reason] }

def commentOut (marker : Text) (pass : FigurePass) (figure : FigureReference) : FigurePass :=
  let text := pass.draft.text
  let start := Text.startOfLine text figure.offset
  let line := Text.lineHolding text figure.offset
  if isCommentLine line then pass
  else if pass.marked.contains start then pass.record figure.path
  else if holdsDelimiter line then
    pass.leave figure.path "line holds an environment delimiter"
  else match pass.draft.insertAtLine? start marker with
    | none => pass.leave figure.path "line starts in a protected region"
    | some draft =>
        ({ pass with draft := draft, marked := start :: pass.marked }).record figure.path

end FigurePass

def commentOutFigures (marker text : Text) (spans : List Span)
    (missing : List FigureReference) : FigurePass :=
  missing.foldl (FigurePass.commentOut marker) ⟨{ text := text, spans := spans }, [], [], []⟩

end LatexIntegrity.Repair
