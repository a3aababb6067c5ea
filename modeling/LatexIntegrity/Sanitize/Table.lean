import LatexIntegrity.Text.Basic

/-!
Escape tables.

A table has at most one replacement for a key, the one that is listed first, and
no empty key.  Its entries are ordered by the length of their keys, longest
first, so that the first key that stands at a place is the longest one.
-/

namespace LatexIntegrity

structure EscapeRule where
  key : Text
  replacement : Text
  deriving DecidableEq, Repr

namespace EscapeRule

def firstOfEachKey (seen : List Text) : List EscapeRule → List EscapeRule
  | [] => []
  | entry :: rest =>
      if entry.key.isEmpty || seen.contains entry.key then firstOfEachKey seen rest
      else entry :: firstOfEachKey (entry.key :: seen) rest

def insertByLength (entry : EscapeRule) : List EscapeRule → List EscapeRule
  | [] => [entry]
  | first :: rest =>
      if entry.key.length < first.key.length then first :: insertByLength entry rest
      else entry :: first :: rest

/-- Orders entries by the length of the key, longest first; equal lengths keep their order. -/
def longestFirst (entries : List EscapeRule) : List EscapeRule :=
  entries.foldr insertByLength []

end EscapeRule

structure EscapeTable where
  entries : List EscapeRule
  deriving DecidableEq, Repr

namespace EscapeTable

def ofEntries (entries : List EscapeRule) : EscapeTable :=
  ⟨EscapeRule.longestFirst (EscapeRule.firstOfEachKey [] entries)⟩

def ofPairs (pairs : List (Text × Text)) : EscapeTable :=
  ofEntries (pairs.map fun pair => ⟨pair.1, pair.2⟩)

def match? (table : EscapeTable) (text : Text) : Option EscapeRule :=
  if text.isEmpty then none else table.entries.find? (·.key.isPrefixOf text)

def lookup? (table : EscapeTable) (key : Text) : Option Text :=
  (table.entries.find? (·.key == key)).map (·.replacement)

end EscapeTable

/-! ## Standard tables -/

structure EscapeTables where
  /-- Typographic and accented characters, replaced everywhere. -/
  typography : EscapeTable
  /-- What is escaped in prose. -/
  prose : EscapeTable
  /-- What is escaped in the cells of a table. -/
  cells : EscapeTable
  deriving DecidableEq, Repr

namespace EscapeTables

def standardTypography : EscapeTable := .ofPairs
  [("–", "--"), ("—", "---"), ("’", "'"), ("‘", "`"), ("“", "``"), ("”", "''"),
    ("²", "$^2$"), ("³", "$^3$"),
    ("¼", "$\\frac\x7b1\x7d\x7b4\x7d$"), ("½", "$\\frac\x7b1\x7d\x7b2\x7d$"),
    ("¾", "$\\frac\x7b3\x7d\x7b4\x7d$"),
    ("∆", "$\\Delta$"), ("∇", "$\\nabla$"), ("∂", "$\\partial$"), ("…", "\\ldots\x7b\x7d"),
    ("é", "\\'e"), ("è", "\\`e"), ("ü", "\\\"u"), ("ö", "\\\"o"), ("ä", "\\\"a")]

/-- The last two keys are the zero-width space and the narrow no-break space. -/
def standardProse : EscapeTable := .ofPairs
  [("&", "\\&"), ("%", "\\%"), ("#", "\\#"), ("_", "\\_"),
    ("^", "\\textasciicircum\x7b\x7d"), ("<", "$<$"), (">", "$>$"),
    ("≤", "$\\leq$"), ("≥", "$\\geq$"), ("≠", "$\\neq$"), ("±", "$\\pm$"),
    ("×", "$\\times$"), ("÷", "$\\div$"), ("°", "$^\x7b\\circ\x7d$"), ("∞", "$\\infty$"),
    ("√", "$\\sqrt\x7b\x7d$"), ("∑", "$\\sum$"), ("∏", "$\\prod$"),
    ("|", "\\textbar\x7b\x7d"), ("∈", "$\\in$"), ("∉", "$\\notin$"),
    ("∀", "$\\forall$"), ("∃", "$\\exists$"), ("∅", "$\\emptyset$"),
    ("\u200b", ""), ("\u202f", " ")]

def standardCells : EscapeTable := .ofPairs
  [(">", "$>$"), ("<", "$<$"), ("=", "$=$"), ("|", "\\textbar\x7b\x7d")]

def standard : EscapeTables := ⟨standardTypography, standardProse, standardCells⟩

end EscapeTables

end LatexIntegrity
