import LatexIntegrity.Proofs.Log.Diagnosis
import LatexIntegrity.Proofs.Text.Decimal
import LatexIntegrity.Proofs.Text.Occurrences

/-!
# Line numbers in logs

A line number is read exactly from the text behind the phrase that introduces it, or not at
all.  The location of a diagnostic holds it in 32 bits, so that of a number from 2 to the
power of 32 on only the remainder is printed.
-/

namespace LatexIntegrity

namespace Log

variable {line : Text} {offset number : Nat}

/-! ## Markers -/

/-- `l.` where no word goes on, and behind it a numeral that a word holds. -/
structure IsLineMarker (text : Text) (offset number : Nat) : Prop where
  phrase : ("l." : Text) <+: text.drop offset
  wordStart : offset = 0 ∨ ∀ b, text[offset - 1]? = some b → Ascii.isLetter b = false
  numeral : Decimal.StartsWithNumeral (text.drop (offset + 2)) number
  lt_word : number < 2 ^ 64

theorem isWordStart_iff {text : Text} :
    isWordStart text offset = true ↔
      offset = 0 ∨ ∀ b, text[offset - 1]? = some b → Ascii.isLetter b = false := by
  rw [isWordStart, Bool.or_eq_true, beq_iff_eq]
  cases text[offset - 1]? <;> simp

def markerAt? (line : Text) (offset : Nat) : Option Nat :=
  if isWordStart line offset then Decimal.read? (line.drop (offset + 2)) else none

theorem isLineMarker_iff :
    IsLineMarker line offset number ↔
      offset ∈ Text.occurrences "l." line ∧ markerAt? line offset = some number := by
  have hborder : Text.HasNoBorder "l." := by
    intro place hlt hpos
    have hlength : (Text.ofString "l.").length = 2 := by decide
    obtain rfl : place = 1 := by omega
    decide
  rw [Text.mem_occurrences_iff (by decide) hborder, markerAt?, Option.ite_none_right_eq_some,
    isWordStart_iff, Decimal.read?_eq_some_iff]
  constructor
  · rintro ⟨hphrase, hstart, hnumeral, hlt⟩
    exact ⟨hphrase, hstart, hnumeral, hlt⟩
  · rintro ⟨hphrase, hstart, hnumeral, hlt⟩
    exact ⟨hphrase, hstart, hnumeral, hlt⟩

theorem lineMarker?_eq_some_iff :
    lineMarker? line = some number ↔
      ∃ offset, IsLineMarker line offset number ∧
        ∀ earlier < offset, ∀ other, ¬IsLineMarker line earlier other := by
  have hsorted : (Text.occurrences "l." line).Pairwise (· < ·) :=
    (Text.pairwise_occurrencesFrom "l." 0 line).2
  have hsearch : lineMarker? line = (Text.occurrences "l." line).findSome? (markerAt? line) := rfl
  rw [hsearch, List.findSome?_eq_some_iff]
  constructor
  · rintro ⟨before, offset, behind, hsplit, hread, hbefore⟩
    refine ⟨offset, isLineMarker_iff.mpr ⟨by simp [hsplit], hread⟩, ?_⟩
    intro earlier hlt other hmarker
    obtain ⟨hmem, hother⟩ := isLineMarker_iff.mp hmarker
    rw [hsplit, List.pairwise_append, List.pairwise_cons] at hsorted
    rw [hsplit, List.mem_append, List.mem_cons] at hmem
    rcases hmem with hmem | rfl | hmem
    · cases (hbefore earlier hmem).symm.trans hother
    · exact Nat.lt_irrefl _ hlt
    · exact Nat.lt_asymm hlt (hsorted.2.1.1 earlier hmem)
  · rintro ⟨offset, hmarker, hfirst⟩
    obtain ⟨hmem, hread⟩ := isLineMarker_iff.mp hmarker
    obtain ⟨before, behind, hsplit⟩ := List.append_of_mem hmem
    refine ⟨before, offset, behind, hsplit, hread, fun earlier hearlier => ?_⟩
    rw [hsplit, List.pairwise_append] at hsorted
    refine Option.eq_none_iff_forall_ne_some.mpr fun other hother => ?_
    exact hfirst earlier (hsorted.2.2 earlier hearlier offset List.mem_cons_self) other
      (isLineMarker_iff.mpr ⟨by simp [hsplit, hearlier], hother⟩)

/--
A line has the number of its first marker, as it is written there, and no number if it has
no marker: occurrences of `l.` inside a word, without a digit, or with a number that no
word holds are passed over.
-/
theorem lineMarker?_exact (line : Text) :
    (∀ number, lineMarker? line = some number ↔
      ∃ offset, IsLineMarker line offset number ∧
        ∀ earlier < offset, ∀ other, ¬IsLineMarker line earlier other) ∧
      (lineMarker? line = none ↔ ∀ offset number, ¬IsLineMarker line offset number) := by
  refine ⟨fun _ => lineMarker?_eq_some_iff, ?_⟩
  have hsearch : lineMarker? line = (Text.occurrences "l." line).findSome? (markerAt? line) := rfl
  rw [hsearch, List.findSome?_eq_none_iff]
  constructor
  · intro hnone offset number hmarker
    obtain ⟨hmem, hread⟩ := isLineMarker_iff.mp hmarker
    cases (hnone offset hmem).symm.trans hread
  · intro hnone offset hmem
    refine Option.eq_none_iff_forall_ne_some.mpr fun number hread => ?_
    exact hnone offset number (isLineMarker_iff.mpr ⟨hmem, hread⟩)

/-! ## Numbers in diagnostics -/

def numberPhrases : List Text := ["l.", "on input line ", "at lines ", "at line "]

/-- A line of the log writes the number behind one of the phrases. -/
def CitesNumber (log : Text) (number : Nat) : Prop :=
  ∃ line ∈ logLines log, ∃ phrase ∈ numberPhrases, ∃ offset,
    phrase <+: line.drop offset ∧
      Decimal.StartsWithNumeral (line.drop (offset + phrase.length)) number

theorem of_numberBehind? {phrase : Text} (h : numberBehind? phrase line = some number) :
    ∃ offset, phrase <+: line.drop offset ∧
      Decimal.StartsWithNumeral (line.drop (offset + phrase.length)) number ∧
        number < 2 ^ 64 := by
  obtain ⟨offset, hoffset, hread⟩ := Option.bind_eq_some_iff.mp h
  obtain ⟨hnumeral, hlt⟩ := Decimal.read?_eq_some_iff.mp hread
  exact ⟨offset, Text.isPrefix_drop_of_search hoffset, hnumeral, hlt⟩

theorem citesNumber_of_marker {log : Text} (hline : line ∈ logLines log)
    (h : lineMarker? line = some number) : CitesNumber log number ∧ number < 2 ^ 64 := by
  obtain ⟨offset, hmarker, -⟩ := lineMarker?_eq_some_iff.mp h
  refine ⟨⟨line, hline, "l.", by decide, offset, hmarker.phrase, ?_⟩, hmarker.lt_word⟩
  exact hmarker.numeral

theorem citesNumber_of_phrase {log phrase : Text} (hline : line ∈ logLines log)
    (hphrase : phrase ∈ numberPhrases) (h : numberBehind? phrase line = some number) :
    CitesNumber log number ∧ number < 2 ^ 64 := by
  obtain ⟨offset, hoffset, hnumeral, hlt⟩ := of_numberBehind? h
  exact ⟨⟨line, hline, phrase, hphrase, offset, hoffset, hnumeral⟩, hlt⟩

theorem line_of_warning? {issue : Issue} (h : warning? line = some issue) :
    issue.line = numberBehind? "on input line " line ∨
      issue.line = (numberBehind? "at lines " line).or (numberBehind? "at line " line) := by
  rw [warning?] at h
  split at h
  · cases h
    exact .inl rfl
  · split at h
    · cases h
      exact .inl rfl
    · obtain ⟨-, h⟩ := Option.ite_none_right_eq_some.mp h
      cases h
      exact .inr rfl

theorem citesNumber_of_mem_classify {log : Text} {issue : Issue} (hissue : issue ∈ classify log)
    (hnumber : issue.line = some number) : CitesNumber log number ∧ number < 2 ^ 64 := by
  rcases List.mem_append.mp hissue with herror | hwarning
  · rw [errors_eq] at herror
    obtain ⟨index, -, rfl⟩ := List.mem_map.mp herror
    obtain ⟨line, hline, hmarker⟩ := List.exists_of_findSome?_eq_some hnumber
    exact citesNumber_of_marker (List.mem_of_mem_drop (List.mem_of_mem_take hline)) hmarker
  · obtain ⟨line, hline, hreports⟩ := List.mem_filterMap.mp hwarning
    rcases line_of_warning? hreports with hsource | hsource
    · exact citesNumber_of_phrase hline (by decide) (hsource.symm.trans hnumber)
    · rcases Option.or_eq_some_iff.mp (hsource.symm.trans hnumber) with h | ⟨-, h⟩
      · exact citesNumber_of_phrase hline (by decide) h
      · exact citesNumber_of_phrase hline (by decide) h

end Log

theorem Issue.toNat_line_toDiagnostic (issue : Issue) (file : UInt32) :
    (issue.toDiagnostic file none).location.line.toNat = issue.line.getD 0 % 2 ^ 32 := by
  have hline : (issue.toDiagnostic file none).location.line =
      (issue.line.map Nat.toUInt32).getD 0 := rfl
  rw [hline]
  cases issue.line with
  | none => rfl
  | some number => exact UInt32.toNat_ofNat'

/--
The diagnostic of an issue of a log has line 0 if the issue has no line.  Otherwise it has
the lower 32 bits of a number that is written in the log, and this is that number, or 0,
exactly if the number is below 2 to the power of 32 or a multiple of it.
-/
theorem Log.classify_printedLine {log : Text} {issue : Issue} (hissue : issue ∈ Log.classify log)
    (file : UInt32) :
    let printed := (issue.toDiagnostic file none).location.line.toNat
    (issue.line = none → printed = 0) ∧
      ∀ number, issue.line = some number →
        Log.CitesNumber log number ∧ printed = number % 2 ^ 32 ∧
          ((printed = 0 ∨ printed = number) ↔ (number < 2 ^ 32 ∨ 2 ^ 32 ∣ number)) := by
  intro printed
  have hprinted : printed = issue.line.getD 0 % 2 ^ 32 := issue.toNat_line_toDiagnostic file
  refine ⟨fun hnone => by rw [hprinted, hnone]; rfl, fun number hnumber => ?_⟩
  rw [hnumber, Option.getD_some] at hprinted
  refine ⟨(citesNumber_of_mem_classify hissue hnumber).1, hprinted, ?_⟩
  rw [hprinted]
  omega

/-- The number behind the marker needs 33 bits, and line 1 is printed. -/
theorem Log.classify_printedLine_wrapped :
    let log : Text := "! Missing $ inserted.\nl.4294967297 x\n"
    let issue : Issue :=
      { kind := .missingMath
        message := "Missing $ inserted."
        line := some 4294967297
        context := ["l.4294967297 x", []] }
    issue ∈ Log.classify log ∧ Log.CitesNumber log 4294967297 ∧
      (issue.toDiagnostic 1 none).location.line = 1 := by
  intro log issue
  have hissue : issue ∈ Log.classify log := by decide +kernel
  obtain ⟨hcites, hprinted, -⟩ := (Log.classify_printedLine hissue 1).2 4294967297 rfl
  exact ⟨hissue, hcites, UInt32.toNat_inj.mp hprinted⟩

end LatexIntegrity
