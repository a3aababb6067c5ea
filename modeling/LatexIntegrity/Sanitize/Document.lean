import LatexIntegrity.Sanitize.Table
import LatexIntegrity.Sanitize.Pass
import LatexIntegrity.Region.Scan

/-!
Sanitization of whole documents.

A full sanitization replaces typographic characters everywhere, then escapes
special characters in plain spans.  The cells of a `tabular` environment have a
table of their own, and its column specification stays.
-/

namespace LatexIntegrity

/-- Where a plain span stands, which selects the table for it. -/
inductive EscapeContext where
  | prose
  | cell
  deriving DecidableEq, Repr

inductive SanitizeScope where
  | full
  | onlyTables
  deriving DecidableEq, Repr

namespace EscapeTables

def forContext (tables : EscapeTables) : EscapeContext → EscapeTable
  | .prose => tables.prose
  | .cell => tables.cells

end EscapeTables

def normalizeTypography (table : EscapeTable) (text : Text) : Text :=
  EscapePass.range table false text 0 text.length

def escapeAll (tables : EscapeTables) (context : EscapeContext) (text : Text) : Text :=
  EscapePass.range (tables.forContext context) true text 0 text.length

def escapeSpan (tables : EscapeTables) (context : EscapeContext) (text : Text)
    (span : Span) : Text :=
  if span.isShielded then span.read text
  else EscapePass.range (tables.forContext context) true text span.start span.stop

namespace Tabular

/--
The bytes of the arguments at the head of a text, `braces` of which are brace
groups.  Bracket groups may stand before each of them.
-/
def argumentsLength (braces : Nat) (text : Text) : Nat :=
  match text with
  | [] => 0
  | b :: rest =>
      if braces = 0 then 0
      else if b == '[' then
        match Group.optional? (b :: rest) with
        | some length => length + argumentsLength braces (rest.drop (length - 1))
        | none => 0
      else if b == '{' then
        match Group.braced? 2 (b :: rest) with
        | some length => length + argumentsLength (braces - 1) (rest.drop (length - 1))
        | none => 0
      else 0
  termination_by text.length
  decreasing_by all_goals simp only [List.length_drop, List.length_cons]; omega

def headerLength (name source : Text) : Nat :=
  match delimiterAt? source 0 with
  | none => 0
  | some opener =>
      let braces := if name == "tabular*" then 2 else 1
      opener.stop + argumentsLength braces (source.drop opener.stop)

def sanitize (tables : EscapeTables) (name source : Text) : Text :=
  let header := headerLength name source
  let closer := (Environment.closer name).length
  if source.length < closer || source.length - closer < header then source
  else
    let bodyStop := source.length - closer
    let body := source.slice header bodyStop
    source.take header ++
      (segment body).flatMap (escapeSpan tables .cell body) ++
      source.drop bodyStop

end Tabular

def SanitizeScope.escapeSpan (scope : SanitizeScope) (tables : EscapeTables) (text : Text)
    (span : Span) : Text :=
  if span.isEnvironment Environment.isTabular then
    Tabular.sanitize tables span.name (span.read text)
  else match scope with
    | .full => LatexIntegrity.escapeSpan tables .prose text span
    | .onlyTables => span.read text

def SanitizeScope.prepare (scope : SanitizeScope) (tables : EscapeTables) (text : Text) :
    Text :=
  match scope with
  | .full => normalizeTypography tables.typography text
  | .onlyTables => text

def sanitize (tables : EscapeTables) (scope : SanitizeScope) (text : Text) : Text :=
  let prepared := scope.prepare tables text
  (segment prepared).flatMap (scope.escapeSpan tables prepared)

end LatexIntegrity
