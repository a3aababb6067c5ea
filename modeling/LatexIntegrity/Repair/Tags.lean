import LatexIntegrity.Edit
import LatexIntegrity.Region.Scan
import LatexIntegrity.Report.Issue

/-!
HTML tags in prose become LaTeX markup.

A paired tag is replaced together with the nearest tag that closes it on the same
line, or not at all; the bytes between the two stay.  One fix sums up what each
rule did.
-/

namespace LatexIntegrity.Repair

inductive TagShape where
  | literal (tag : Text)
  | lineBreak
  | block
  deriving DecidableEq, Repr

namespace TagShape

/-- `br` in angle brackets, with white space and a slash in front of the second. -/
def lineBreakLength? (text : Text) : Option Nat :=
  if !Ascii.startsIgnoringCase "<br" text then none
  else
    let behind := text.drop 3
    let blanks := (behind.takeWhile Ascii.isSpace).length
    let slash := if (behind.drop blanks).head? = some ('/' : UInt8) then 1 else 0
    if (behind.drop (blanks + slash)).head? = some ('>' : UInt8) then
      some (3 + blanks + slash + 1)
    else none

def blockNames : List Text :=
  ["div", "span", "section", "h1", "h2", "h3", "h4", "h5", "h6"]

def startsWithName (text name : Text) : Bool :=
  Ascii.startsIgnoringCase name text &&
    !(((text.drop name.length).head?).map Ascii.isAlphanumeric).getD false

/-- An opening or closing tag of a block name, with any attributes, on one line. -/
def blockLength? : Text → Option Nat
  | [] => none
  | b :: rest =>
      let slash := if rest.head? = some ('/' : UInt8) then 1 else 0
      if b != '<' then none
      else match blockNames.find? (startsWithName (rest.drop slash)) with
        | none => none
        | some name =>
            let behind := rest.drop (slash + name.length)
            let attributes :=
              (behind.takeWhile fun b => b != ('>' : UInt8) && b != ('\n' : UInt8)).length
            if (behind.drop attributes).head? = some ('>' : UInt8) then
              some (1 + slash + name.length + attributes + 1)
            else none

def length? (text : Text) : TagShape → Option Nat
  | .literal tag => if Ascii.startsIgnoringCase tag text then some tag.length else none
  | .lineBreak => lineBreakLength? text
  | .block => blockLength? text

end TagShape

structure ClosingTag where
  tag : Text
  replacement : Text
  deriving DecidableEq, Repr

structure TagRule where
  name : Text
  shape : TagShape
  replacement : Text
  closing : Option ClosingTag := none
  deriving DecidableEq, Repr

def tagRules : List TagRule :=
  [⟨"html_bold", .literal "<b>", "\\textbf\x7b", some ⟨"</b>", "\x7d"⟩⟩,
    ⟨"html_italic", .literal "<i>", "\\textit\x7b", some ⟨"</i>", "\x7d"⟩⟩,
    ⟨"html_emphasis", .literal "<em>", "\\emph\x7b", some ⟨"</em>", "\x7d"⟩⟩,
    ⟨"html_br", .lineBreak, "\\\\", none⟩,
    ⟨"html_p_open", .literal "<p>", "\n\n", none⟩,
    ⟨"html_p_close", .literal "</p>", "", none⟩,
    ⟨"html_code", .literal "<code>", "\\texttt\x7b", some ⟨"</code>", "\x7d"⟩⟩,
    ⟨"html_subscript", .literal "<sub>", "$_\x7b", some ⟨"</sub>", "\x7d$"⟩⟩,
    ⟨"html_superscript", .literal "<sup>", "$^\x7b", some ⟨"</sup>", "\x7d$"⟩⟩,
    ⟨"html_block", .block, "", none⟩]

/-- The edits recorded so far, and the name of a rule for each time that it fired. -/
structure TagScan where
  draft : Draft
  fired : List Text
  deriving DecidableEq, Repr

namespace TagScan

def closingDistance? (tag text : Text) : Option Nat :=
  Text.search (Ascii.lower tag) (Ascii.lower (text.takeWhile (· != ('\n' : UInt8))))

/--
Tries the rules in order at `offset`, where `text` begins.  The answer holds the
bytes of the replaced tag.  A rule whose tag stands there settles the matter, be
its edits accepted or not, except a paired one that is not closed on its line.
-/
def attempt (scan : TagScan) (offset : Nat) (text : Text) :
    List TagRule → Option (TagScan × Nat)
  | [] => none
  | rule :: others =>
      match rule.shape.length? text, rule.closing with
      | none, _ => attempt scan offset text others
      | some length, none => do
          let draft ← scan.draft.replace? offset length rule.replacement
          return (⟨draft, scan.fired ++ [rule.name]⟩, length)
      | some length, some closing =>
          match closingDistance? closing.tag (text.drop length) with
          | none => attempt scan offset text others
          | some distance => do
              let opened ← scan.draft.replace? offset length rule.replacement
              let draft ← opened.replace? (offset + length + distance) closing.tag.length
                closing.replacement
              return (⟨draft, scan.fired ++ [rule.name]⟩, length)

def runTo (stop : Nat) (scan : TagScan) (offset : Nat) (text : Text) : TagScan :=
  match text with
  | [] => scan
  | b :: rest =>
      if stop ≤ offset then scan
      else match if b == '<' then attempt scan offset (b :: rest) tagRules else none with
        | some (next, length) => runTo stop next (offset + length) (rest.drop (length - 1))
        | none => runTo stop scan (offset + 1) rest
  termination_by text.length
  decreasing_by all_goals simp only [List.length_drop, List.length_cons]; omega

def runSpan (scan : TagScan) (span : Span) : TagScan :=
  if span.kind == .plain then
    runTo span.stop scan span.start (scan.draft.text.drop span.start)
  else scan

end TagScan

def TagRule.fix? (fired : List Text) (rule : TagRule) : Option Fix :=
  let count := fired.count rule.name
  if count = 0 then none
  else
    some
      { name := rule.name
        description :=
          "Replaced " ++ Decimal.render count ++ " HTML " ++ rule.name ++ " tags" }

def replaceTags (text : Text) : Text × List Fix :=
  let spans := segment text
  let scan := spans.foldl TagScan.runSpan ⟨{ text := text, spans := spans }, []⟩
  (scan.draft.apply, tagRules.filterMap (TagRule.fix? scan.fired))

end LatexIntegrity.Repair
