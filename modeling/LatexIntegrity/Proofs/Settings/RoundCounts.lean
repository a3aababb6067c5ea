import LatexIntegrity.Proofs.Settings.Values

/-!
# The round counts that are accepted

A count is white space, a plus sign or none, and a numeral for 1 to 100.  Behind a minus
sign a numeral stands for its complement in words, so that the numerals just below 2 to the
power of 64 are accepted there as well.
-/

namespace LatexIntegrity

namespace RoundCount

variable {text : Text} {count : Nat}

/-- White space, a plus sign or none, and a numeral for a number from 1 to 100. -/
def IsCount (text : Text) (count : Nat) : Prop :=
  ∃ blanks sign digits : Text, text = blanks ++ (sign ++ digits) ∧ blanks.IsSpace ∧
    (sign = [] ∨ sign = "+") ∧ Decimal.IsNumeral digits count ∧ 1 ≤ count ∧ count ≤ 100

/-- White space, a minus sign, and a numeral that lies 1 to 100 below 2 to the power of 64. -/
def IsWrappedCount (text : Text) (count : Nat) : Prop :=
  ∃ blanks digits : Text, ∃ number, text = blanks ++ ("-" ++ digits) ∧ blanks.IsSpace ∧
    Decimal.IsNumeral digits number ∧ number + count = 2 ^ 64 ∧ 1 ≤ count ∧ count ≤ 100

theorem denotes_iff_isCount_or :
    Denotes text count ↔ IsCount text count ∨ IsWrappedCount text count := by
  constructor
  · rintro ⟨⟨blanks, sign, digits, ⟨htext, hblanks, hsign, hne, hdigits, hlt⟩, hcount⟩, hbounds⟩
    have hnumeral : Decimal.IsNumeral digits (Decimal.value digits) :=
      ⟨hne, hdigits, (Decimal.value_eq_ofDigits digits).symm⟩
    by_cases hminus : sign = "-"
    · subst hminus
      rw [if_pos rfl, complement] at hcount
      rw [wordSize] at hcount hlt
      exact .inr ⟨blanks, digits, _, htext, hblanks, hnumeral, by omega, hbounds⟩
    · rw [if_neg hminus] at hcount
      have hplus : sign = [] ∨ sign = "+" := hsign.imp_right fun h => h.resolve_right hminus
      exact .inl ⟨blanks, sign, digits, htext, hblanks, hplus, hcount ▸ hnumeral, hbounds⟩
  · rintro (⟨blanks, sign, digits, htext, hblanks, hsign, hnumeral, hbounds⟩ |
      ⟨blanks, digits, number, htext, hblanks, hnumeral, hsum, hbounds⟩)
    · have hvalue : Decimal.value digits = count :=
        (Decimal.value_eq_ofDigits digits).trans hnumeral.ofDigits
      have hminus : sign ≠ "-" := by
        rcases hsign with rfl | rfl <;> decide
      refine ⟨⟨blanks, sign, digits, ⟨htext, hblanks, hsign.imp_right .inl, hnumeral.ne_nil,
        hnumeral.isDigit, ?_⟩, ?_⟩, hbounds⟩
      · rw [hvalue, wordSize]
        omega
      · rw [if_neg hminus, hvalue]
    · have hvalue : Decimal.value digits = number :=
        (Decimal.value_eq_ofDigits digits).trans hnumeral.ofDigits
      refine ⟨⟨blanks, "-", digits, ⟨htext, hblanks, .inr (.inr rfl), hnumeral.ne_nil,
        hnumeral.isDigit, ?_⟩, ?_⟩, hbounds⟩
      · rw [hvalue, wordSize]
        omega
      · rw [if_pos rfl, hvalue, complement, wordSize]
        omega

end RoundCount

/--
The texts that are read are the counts and the numerals behind a minus sign whose
complement is one.  A text that is read gives its value to the setting, and any other one
leaves the settings as they are.  Texts of the second form apart, exactly the counts are
read.
-/
theorem RoundCount.read?_accepts (text : Text) (settings : Settings) :
    (∀ count, read? text = some count ↔ IsCount text count ∨ IsWrappedCount text count) ∧
      (∀ count, read? text = some count →
        settings.assignRounds text = { settings with maxRounds := count }) ∧
      (read? text = none → settings.assignRounds text = settings) ∧
      ((∀ count, ¬IsWrappedCount text count) →
        ∀ count, read? text = some count ↔ IsCount text count) := by
  have hread : ∀ count, read? text = some count ↔ IsCount text count ∨ IsWrappedCount text count :=
    fun count => denotes_iff.symm.trans denotes_iff_isCount_or
  refine ⟨hread, fun count hcount => ?_, fun hnone => ?_, fun hwrapped count => ?_⟩
  · rw [Settings.assignRounds, hcount]
  · rw [Settings.assignRounds, hnone]
  · rw [hread, or_iff_left (hwrapped count)]

/-- The complement of the largest word is 1, which no count in this text is. -/
theorem RoundCount.read?_accepts_complement :
    let text : Text := "-18446744073709551615"
    IsWrappedCount text 1 ∧ (Settings.default.assignRounds text).maxRounds = 1 ∧
      ∀ count, ¬IsCount text count := by
  intro text
  have hnumeral : Decimal.IsNumeral "18446744073709551615" 18446744073709551615 :=
    ⟨by decide, List.all_eq_true.mp (by decide), by decide +kernel⟩
  have hwrapped : IsWrappedCount text 1 :=
    ⟨[], "18446744073709551615", _, by decide, List.forall_mem_nil _, hnumeral, by decide⟩
  obtain ⟨hread, hassign, -⟩ := RoundCount.read?_accepts text .default
  refine ⟨hwrapped, by rw [hassign 1 ((hread 1).mpr (.inr hwrapped))], ?_⟩
  rintro count ⟨blanks, sign, digits, htext, hblanks, hsign, hcount, -⟩
  have hhead : some ('-' : UInt8) = (blanks ++ (sign ++ digits)).head? :=
    congrArg List.head? htext
  cases blanks with
  | cons b rest =>
      have hspace := hblanks b List.mem_cons_self
      rw [← Option.some.inj hhead] at hspace
      revert hspace
      decide
  | nil =>
      rcases hsign with rfl | rfl
      · obtain ⟨b, rest, rfl⟩ := List.exists_cons_of_ne_nil hcount.ne_nil
        have hdigit := hcount.isDigit b List.mem_cons_self
        rw [← Option.some.inj hhead] at hdigit
        revert hdigit
        decide
      · have hplus : (([] : Text) ++ ("+" ++ digits)).head? = some ('+' : UInt8) := rfl
        exact absurd (hhead.trans hplus) (by decide)

end LatexIntegrity
