import LatexIntegrity.Log.Message
import LatexIntegrity.Text.Basic

/-!
Classification of compiler logs.

A line that begins with `! ` reports an error, and the lines behind it explain
it.  An error stays open until it has its lines of context; several errors may
be open at once.  Warnings are single lines.  The errors come first in the
answer, then the warnings, each in the order of the log.
-/

namespace LatexIntegrity.Log

def logLines (log : Text) : List Text := (Text.lines log).map Text.withoutReturn

/-! ## Errors -/

def contextLines : Nat := 5

structure OpenError where
  issue : Issue
  remaining : Nat
  deriving DecidableEq, Repr

def OpenError.ofLine? (line : Text) : Option OpenError :=
  if Text.hasAt line 0 "! " then
    let message := line.drop 2
    some ⟨{ kind := messageKind message, message := message }, contextLines⟩
  else none

/-- Adds a line of context.  The first line marker gives the line of the error. -/
def OpenError.explain (error : OpenError) (line : Text) : OpenError :=
  { issue :=
      { error.issue with
        context := error.issue.context ++ [line]
        line := error.issue.line.or (lineMarker? line) }
    remaining := error.remaining - 1 }

structure ErrorScan where
  closed : List Issue
  pending : List OpenError
  deriving DecidableEq, Repr

namespace ErrorScan

def start : ErrorScan := ⟨[], []⟩

/-- Hands a line to the open errors, closes those in front that are complete, and
opens the error that the line itself reports. -/
def feed (scan : ErrorScan) (line : Text) : ErrorScan :=
  let explained := scan.pending.map (·.explain line)
  let complete := explained.takeWhile (·.remaining == 0)
  { closed := scan.closed ++ complete.map (·.issue)
    pending := explained.dropWhile (·.remaining == 0) ++ (OpenError.ofLine? line).toList }

def finish (scan : ErrorScan) : List Issue := scan.closed ++ scan.pending.map (·.issue)

end ErrorScan

def errors (lines : List Text) : List Issue := (lines.foldl ErrorScan.feed .start).finish

/-! ## Warnings -/

def badBoxPhrases : List Text :=
  ["Overfull \\hbox", "Overfull \\vbox", "Underfull \\hbox", "Underfull \\vbox"]

def undefinedName (kind : IssueKind) (line : Text) : Issue :=
  { kind := kind
    severity := .warning
    message := Text.trim Ascii.isSpace line
    key := (quoted? line).getD []
    line := numberBehind? "on input line " line }

def badBox (line : Text) : Issue :=
  { kind := .badBox
    severity := .note
    message := Text.trim Ascii.isSpace line
    line := (numberBehind? "at lines " line).or (numberBehind? "at line " line) }

def warning? (line : Text) : Option Issue :=
  if Text.contains "Citation" line && Text.contains "undefined" line then
    some (undefinedName .undefinedCitation line)
  else if Text.contains "Reference" line && Text.contains "undefined" line then
    some (undefinedName .undefinedReference line)
  else if badBoxPhrases.any (Text.contains · line) then some (badBox line)
  else none

def classify (log : Text) : List Issue :=
  errors (logLines log) ++ (logLines log).filterMap warning?

end LatexIntegrity.Log
