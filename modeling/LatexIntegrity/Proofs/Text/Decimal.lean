import Mathlib.Data.List.Induction
import Mathlib.Data.List.TakeWhile
import Mathlib.Data.Nat.Digits.Defs
import LatexIntegrity.Text.Ascii

/-!
# Numerals

A decimal number is read exactly.  The reader answers with the value of the longest run of
digits, leading zeros included, or with nothing if there is no digit or if no word holds
the value.  It tests in words whether there is room for one more digit, and the test fails
for the first time where the value would be too large.
-/

namespace LatexIntegrity.Decimal

variable {digits text : Text} {number : Nat}

/-! ## Reading into a word -/

def valueFrom (total : Nat) (digits : Text) : Nat :=
  digits.foldl (fun total digit => total * 10 + (digit.toNat - 48)) total

theorem le_valueFrom (total : Nat) (digits : Text) : total ≤ valueFrom total digits := by
  induction digits generalizing total with
  | nil => exact Nat.le_refl total
  | cons digit rest ih =>
      have hrest := ih (total * 10 + (digit.toNat - 48))
      rw [valueFrom, List.foldl_cons]
      rw [valueFrom] at hrest
      omega

theorem toNat_units {digit : UInt8} (h : Ascii.isDigit digit = true) :
    (digit - '0').toUInt64.toNat = digit.toNat - 48 ∧ digit.toNat - 48 < 10 := by
  revert h
  exact Ascii.forall_byte (p := fun digit => Ascii.isDigit digit = true →
    (digit - '0').toUInt64.toNat = digit.toNat - 48 ∧ digit.toNat - 48 < 10)
    (by decide +kernel) digit

theorem appendDigit?_eq_some_iff {total word : UInt64} {digit : UInt8}
    (h : Ascii.isDigit digit = true) :
    appendDigit? total digit = some word ↔
      word.toNat = total.toNat * 10 + (digit.toNat - 48) := by
  obtain ⟨hunits, hlt⟩ := toNat_units h
  have hword := word.toNat_lt
  have hlargest : largestWord.toNat = 18446744073709551615 := rfl
  have hroom : ((largestWord - (digit - '0').toUInt64) / 10).toNat =
      (18446744073709551615 - (digit.toNat - 48)) / 10 := by
    rw [UInt64.toNat_div, UInt64.toNat_sub_of_le, hunits, hlargest]
    · rfl
    · rw [UInt64.le_iff_toNat_le, hunits, hlargest]
      omega
  rw [appendDigit?, Option.ite_none_left_eq_some, UInt64.lt_iff_toNat_lt, hroom,
    Option.some.injEq, ← UInt64.toNat_inj, UInt64.toNat_add, UInt64.toNat_mul, hunits,
    show UInt64.toNat 10 = 10 from rfl]
  omega

theorem foldlM_appendDigit?_eq_some_iff {total word : UInt64}
    (h : ∀ digit ∈ digits, Ascii.isDigit digit = true) :
    digits.foldlM appendDigit? total = some word ↔
      word.toNat = valueFrom total.toNat digits := by
  induction digits generalizing total with
  | nil => simp [valueFrom, ← UInt64.toNat_inj, eq_comm]
  | cons digit rest ih =>
      obtain ⟨hdigit, hrest⟩ := List.forall_mem_cons.mp h
      rw [List.foldlM_cons, Option.bind_eq_bind, Option.bind_eq_some_iff, valueFrom,
        List.foldl_cons]
      constructor
      · rintro ⟨next, hnext, hword⟩
        rw [← (appendDigit?_eq_some_iff hdigit).mp hnext]
        exact (ih hrest).mp hword
      · intro hword
        -- Numbers only grow, so a word that holds the whole value leaves room for each digit.
        have hgrows := le_valueFrom (total.toNat * 10 + (digit.toNat - 48)) rest
        rw [valueFrom, ← hword] at hgrows
        obtain ⟨next, hnext⟩ : ∃ next : UInt64,
            next.toNat = total.toNat * 10 + (digit.toNat - 48) :=
          ⟨UInt64.ofNat _,
            UInt64.toNat_ofNat_of_lt (Nat.lt_of_le_of_lt hgrows word.toNat_lt)⟩
        refine ⟨next, (appendDigit?_eq_some_iff hdigit).mpr hnext, (ih hrest).mpr ?_⟩
        rw [hword, hnext, valueFrom]

theorem isDigit_run (text : Text) : ∀ b ∈ run text, Ascii.isDigit b = true :=
  fun _ hb => List.mem_takeWhile_imp hb

theorem read?_eq_some_iff_run :
    read? text = some number ↔ run text ≠ [] ∧ value (run text) = number ∧ number < wordSize := by
  rw [read?, Option.ite_none_left_eq_some, List.isEmpty_iff, Option.map_eq_some_iff]
  refine and_congr_right fun _ => ?_
  simp only [foldlM_appendDigit?_eq_some_iff (isDigit_run text)]
  constructor
  · rintro ⟨word, hword, rfl⟩
    exact ⟨hword.symm, word.toNat_lt⟩
  · rintro ⟨rfl, hlt⟩
    exact ⟨UInt64.ofNat _, UInt64.toNat_ofNat_of_lt hlt, UInt64.toNat_ofNat_of_lt hlt⟩

/-! ## Numerals -/

/-- Digits, the last of which counts units; leading zeros are allowed. -/
structure IsNumeral (digits : Text) (number : Nat) : Prop where
  ne_nil : digits ≠ []
  isDigit : ∀ b ∈ digits, Ascii.isDigit b = true
  ofDigits : Nat.ofDigits 10 (digits.reverse.map fun b => b.toNat - 48) = number

/-- A numeral that no further digit follows stands at the head of the text. -/
def StartsWithNumeral (text : Text) (number : Nat) : Prop :=
  ∃ digits behind, text = digits ++ behind ∧ IsNumeral digits number ∧
    ∀ b ∈ behind.head?, Ascii.isDigit b = false

theorem value_eq_ofDigits (digits : Text) :
    value digits = Nat.ofDigits 10 (digits.reverse.map fun b => b.toNat - 48) := by
  induction digits using List.reverseRecOn with
  | nil => rfl
  | append_singleton digits digit ih =>
      have hlast : value (digits ++ [digit]) = value digits * 10 + (digit.toNat - 48) := by
        rw [value, List.foldl_append]
        rfl
      rw [hlast, ih, List.reverse_concat, List.map_cons, Nat.ofDigits_cons]
      omega

theorem startsWithNumeral_iff :
    StartsWithNumeral text number ↔ run text ≠ [] ∧ value (run text) = number := by
  constructor
  · rintro ⟨digits, behind, rfl, hnumeral, hbehind⟩
    have hrun : run (digits ++ behind) = digits := by
      rw [run, List.takeWhile_append_of_pos hnumeral.isDigit]
      cases behind with
      | nil => simp
      | cons b rest => simp [hbehind b rfl]
    rw [hrun, value_eq_ofDigits]
    exact ⟨hnumeral.ne_nil, hnumeral.ofDigits⟩
  · rintro ⟨hne, rfl⟩
    refine ⟨run text, text.dropWhile Ascii.isDigit, List.takeWhile_append_dropWhile.symm,
      ⟨hne, isDigit_run text, (value_eq_ofDigits _).symm⟩, fun b hb => ?_⟩
    have hhead := List.head?_dropWhile_not Ascii.isDigit text
    rwa [Option.mem_def.mp hb] at hhead

theorem read?_eq_some_iff :
    read? text = some number ↔ StartsWithNumeral text number ∧ number < wordSize := by
  rw [read?_eq_some_iff_run, startsWithNumeral_iff, and_assoc]

end LatexIntegrity.Decimal
