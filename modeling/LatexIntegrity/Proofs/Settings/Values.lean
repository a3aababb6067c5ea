import LatexIntegrity.Proofs.Text.Decimal
import LatexIntegrity.Proofs.Text.Lines
import LatexIntegrity.Proofs.Text.Parts
import LatexIntegrity.Settings.Basic

/-!
# Values of settings

What a settings file may assign to each setting, as grammars of the values: round counts,
lists, markers and flags.  The readers accept exactly these values.
-/

namespace LatexIntegrity

/-! ## White space -/

namespace Text

variable {text body left right : Text}

def IsSpace (text : Text) : Prop := ∀ b ∈ text, Ascii.isSpace b = true

def IsTrimmed (text : Text) : Prop :=
  (∀ b ∈ text.head?, Ascii.isSpace b = false) ∧ ∀ b ∈ text.getLast?, Ascii.isSpace b = false

def Pads (body text : Text) : Prop :=
  body.IsTrimmed ∧ ∃ left right : Text, left.IsSpace ∧ right.IsSpace ∧ text = left ++ body ++ right

theorem Pads.subset (h : Pads body text) : body ⊆ text := by
  obtain ⟨-, left, right, -, -, rfl⟩ := h
  exact fun b hb => List.mem_append_left _ (List.mem_append_right _ hb)

theorem pads_iff : Pads body text ↔ Settings.trim text = body := trim_eq_iff.symm

theorem pads_trim (text : Text) : Pads (Settings.trim text) text := pads_iff.mpr rfl

end Text

/-! ## Round counts -/

namespace RoundCount

variable {text digits : Text} {count : Nat}

def complement (number : Nat) : Nat := (wordSize - number) % wordSize

/-- White space, a sign or none, and digits for a number that a word holds. -/
structure Spells (text blanks sign digits : Text) : Prop where
  eq_append : text = blanks ++ (sign ++ digits)
  isSpace : blanks.IsSpace
  isSign : sign = [] ∨ sign = "+" ∨ sign = "-"
  ne_nil : digits ≠ []
  isDigit : ∀ b ∈ digits, Ascii.isDigit b = true
  lt_wordSize : Decimal.value digits < wordSize

def Denotes (text : Text) (count : Nat) : Prop :=
  (∃ blanks sign digits, Spells text blanks sign digits ∧
    count = if sign = "-" then complement (Decimal.value digits) else Decimal.value digits) ∧
  1 ≤ count ∧ count ≤ 100

theorem signed_eq {number : Nat} (h : number < wordSize) (isNegative : Bool) :
    signed isNegative number = if isNegative then complement number else number := by
  cases isNegative with
  | false => rfl
  | true =>
      rw [signed, if_pos rfl, if_pos rfl, wordDifference, complement]
      split
      · next hzero =>
          rw [Nat.le_zero.mp hzero]
          decide
      · rw [Nat.zero_add, Nat.mod_eq_of_lt (by omega)]

theorem run_eq_self_iff : Decimal.run digits = digits ↔ ∀ b ∈ digits, Ascii.isDigit b = true :=
  List.takeWhile_eq_self_iff

theorem not_of_isDigit {b : UInt8} (h : Ascii.isDigit b = true) :
    Ascii.isSpace b = false ∧ b ≠ '-' ∧ b ≠ '+' := by
  revert h
  exact Ascii.forall_byte (p := fun b => Ascii.isDigit b = true →
    Ascii.isSpace b = false ∧ b ≠ '-' ∧ b ≠ '+') (by decide +kernel) b

theorem splitSign_of_spells {blanks sign : Text} (h : Spells text blanks sign digits) :
    splitSign (text.dropWhile Ascii.isSpace) = (decide (sign = "-"), digits) := by
  obtain ⟨b, rest, hdigits⟩ := List.exists_cons_of_ne_nil h.ne_nil
  obtain ⟨hspace, hminus, hplus⟩ :=
    not_of_isDigit (h.isDigit b (by rw [hdigits]; exact List.mem_cons_self))
  have hdrop : text.dropWhile Ascii.isSpace = sign ++ digits := by
    rw [h.eq_append, List.dropWhile_append_of_pos h.isSpace]
    refine Text.dropWhile_eq_self ?_
    rcases h.isSign with rfl | rfl | rfl
    · simpa [hdigits] using hspace
    · intro b hb
      rw [← Option.some.inj hb]
      decide
    · intro b hb
      rw [← Option.some.inj hb]
      decide
  rw [hdrop]
  rcases h.isSign with rfl | rfl | rfl
  · simp [hdigits, splitSign, hminus, hplus]
    decide
  · rfl
  · rfl

theorem exists_sign (text : Text) :
    ∃ sign, (sign = [] ∨ sign = "+" ∨ sign = "-") ∧ text = sign ++ (splitSign text).2 ∧
      (splitSign text).1 = decide (sign = "-") := by
  unfold splitSign
  split
  · exact ⟨[], .inl rfl, rfl, rfl⟩
  · next b rest =>
      split_ifs with hminus hplus
      · obtain rfl := beq_iff_eq.mp hminus
        exact ⟨"-", .inr (.inr rfl), rfl, rfl⟩
      · obtain rfl := beq_iff_eq.mp hplus
        exact ⟨"+", .inr (.inl rfl), rfl, rfl⟩
      · exact ⟨[], .inl rfl, rfl, rfl⟩

theorem word?_of_spells {blanks sign : Text} (h : Spells text blanks sign digits) :
    word? text = some (if sign = "-" then complement (Decimal.value digits)
      else Decimal.value digits) := by
  have hrun := run_eq_self_iff.mpr h.isDigit
  have hread : Decimal.read? digits = some (Decimal.value digits) :=
    Decimal.read?_eq_some_iff_run.mpr ⟨by rw [hrun]; exact h.ne_nil, by rw [hrun], h.lt_wordSize⟩
  simp [word?, splitSign_of_spells h, hread, hrun, signed_eq h.lt_wordSize]

theorem spells_of_word? {number : Nat} (h : word? text = some number) :
    ∃ blanks sign digits, Spells text blanks sign digits ∧
      number = if sign = "-" then complement (Decimal.value digits) else Decimal.value digits := by
  obtain ⟨blanks, hblanks, htext, -⟩ := Text.exists_append_dropWhile Ascii.isSpace text
  obtain ⟨sign, hsign, hrest, hnegative⟩ := exists_sign (text.dropWhile Ascii.isSpace)
  cases hsplit : splitSign (text.dropWhile Ascii.isSpace) with
  | mk isNegative digits =>
      rw [hsplit] at hrest hnegative
      simp only [word?, hsplit] at h
      obtain ⟨value, hvalue, h⟩ := Option.bind_eq_some_iff.mp h
      obtain ⟨hlength, hnumber⟩ := Option.ite_none_right_eq_some.mp h
      have hrun : Decimal.run digits = digits := (List.takeWhile_prefix _).eq_of_length hlength
      rw [Decimal.read?_eq_some_iff_run, hrun] at hvalue
      obtain ⟨hne, rfl, hlt⟩ := hvalue
      refine ⟨blanks, sign, digits, ⟨by rw [← hrest, ← htext], hblanks, hsign, hne,
        run_eq_self_iff.mp hrun, hlt⟩, ?_⟩
      rw [← Option.some.inj hnumber, signed_eq hlt, show isNegative = _ from hnegative]
      simp

theorem denotes_iff : Denotes text count ↔ read? text = some count := by
  rw [read?, Option.filter_eq_some_iff, Denotes, Bool.and_eq_true, decide_eq_true_eq,
    decide_eq_true_eq]
  refine and_congr_left fun _ => ⟨?_, spells_of_word?⟩
  rintro ⟨blanks, sign, digits, hspells, rfl⟩
  exact word?_of_spells hspells

end RoundCount

/-! ## Lists, markers and flags -/

namespace Settings

variable {value : Text}

/-- The items that stand between commas, less white space around them and less empty ones. -/
def IsList (value : Text) (list : List Text) : Prop :=
  list ≠ [] ∧ ∃ pieces, List.Forall₂ Text.Pads pieces (List.splitOn (',' : UInt8) value) ∧
    list = pieces.filter (· ≠ [])

def IsMarker (value marker : Text) : Prop := value ≠ [] ∧ marker = value ++ " "

def IsFlag (value : Text) : Bool → Prop
  | true => Ascii.lower value ∈ (["1", "true", "yes"] : List Text)
  | false => Ascii.lower value ∈ (["0", "false", "no"] : List Text)

theorem forall₂_pads_iff {pieces texts : List Text} :
    List.Forall₂ Text.Pads pieces texts ↔ pieces = texts.map trim := by
  have hpads : Text.Pads = fun body text => body = trim text := by
    funext body text
    exact propext (Text.pads_iff.trans eq_comm)
  rw [hpads, ← List.forall₂_map_right_iff (R := Eq), List.forall₂_eq_eq_eq]

theorem isList_iff {list : List Text} :
    IsList value list ↔ items value ≠ [] ∧ list = items value := by
  have hitems : items value = ((value.splitOn (',' : UInt8)).map trim).filter (· ≠ []) := by
    rw [items, Text.splitAt_eq_splitOn]
    refine List.filter_congr fun item _ => ?_
    cases item <;> rfl
  simp only [IsList, forall₂_pads_iff, exists_eq_left, ← hitems]
  constructor
  · rintro ⟨hne, rfl⟩
    exact ⟨hne, rfl⟩
  · rintro ⟨hne, rfl⟩
    exact ⟨hne, rfl⟩

theorem isFlag_iff {flag : Bool} : IsFlag value flag ↔ flag? value = some flag := by
  have hdisjoint : ∀ word ∈ (["1", "true", "yes"] : List Text),
      word ∉ (["0", "false", "no"] : List Text) := by decide +kernel
  simp only [flag?, List.contains_iff_mem]
  by_cases hyes : Ascii.lower value ∈ (["1", "true", "yes"] : List Text)
  · rw [if_pos hyes]
    cases flag with
    | true => exact iff_of_true hyes rfl
    | false => exact iff_of_false (hdisjoint _ hyes) nofun
  · rw [if_neg hyes]
    cases flag with
    | true =>
        refine iff_of_false hyes ?_
        split <;> nofun
    | false =>
        rw [IsFlag]
        split
        · next hno => exact iff_of_true hno rfl
        · next hno => exact iff_of_false hno nofun

end Settings

end LatexIntegrity
