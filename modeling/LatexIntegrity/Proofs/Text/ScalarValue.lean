import Mathlib.Data.List.Forall2
import Mathlib.Data.List.Infix
import Mathlib.Tactic.SplitIfs
import LatexIntegrity.Text.Utf8

/-!
# The UTF-8 forms of scalar values

The byte ranges of a lead byte and its followers describe the forms of all scalar values and
nothing else: they leave out overlong forms, surrogates and values above U+10FFFF.
-/

namespace LatexIntegrity.Utf8

def form (c : Char) : Text := String.utf8EncodeChar c

variable {lead b : UInt8} {part rest : Text} {range : ByteRange} {ranges : List ByteRange}

/-! ## Forms by their length -/

theorem toNat_ofNat_of_lt {value : Nat} (h : value < 256) : (UInt8.ofNat value).toNat = value := by
  rw [UInt8.toNat_ofNat']
  exact Nat.mod_eq_of_lt h

theorem exists_form {value : Nat} (h : value.isValidChar) :
    ∃ c : Char, c.val.toNat = value :=
  ⟨Char.ofNatAux value h, rfl⟩

theorem exists_form_one (h : lead.toNat < 0x80) : ∃ c, form c = [lead] := by
  obtain ⟨c, hc⟩ := @exists_form lead.toNat (.inl (by omega))
  refine ⟨c, ?_⟩
  rw [form, String.utf8EncodeChar, hc, if_pos (by omega), UInt8.ofNat_toNat]

theorem exists_form_two {x y : Nat} (hx : 2 ≤ x ∧ x < 32) (hy : y < 64) :
    ∃ c, form c = [UInt8.ofNat (x + 0xC0), UInt8.ofNat (y + 0x80)] := by
  obtain ⟨c, hc⟩ := @exists_form (x * 64 + y) (.inl (by omega))
  refine ⟨c, ?_⟩
  have hlead : (x * 64 + y) / 64 % 32 = x := by omega
  have hlast : (x * 64 + y) % 64 = y := by omega
  rw [form, String.utf8EncodeChar, hc]
  simp only [hlead, hlast]
  rw [if_neg (by omega), if_pos (by omega)]

theorem exists_form_three {x y z : Nat} (hx : x < 16) (hy : y < 64) (hz : z < 64)
    (hlong : x = 0 → 32 ≤ y) (hsurrogate : x = 13 → y < 32) :
    ∃ c, form c = [UInt8.ofNat (x + 0xE0), UInt8.ofNat (y + 0x80), UInt8.ofNat (z + 0x80)] := by
  obtain ⟨c, hc⟩ := @exists_form (x * 4096 + y * 64 + z) (by rw [Nat.isValidChar]; omega)
  refine ⟨c, ?_⟩
  have hlead : (x * 4096 + y * 64 + z) / 4096 % 16 = x := by omega
  have hsecond : (x * 4096 + y * 64 + z) / 64 % 64 = y := by omega
  have hlast : (x * 4096 + y * 64 + z) % 64 = z := by omega
  rw [form, String.utf8EncodeChar, hc]
  simp only [hlead, hsecond, hlast]
  rw [if_neg (by omega), if_neg (by omega), if_pos (by omega)]

theorem exists_form_four {x y z w : Nat} (hx : x < 5) (hy : y < 64) (hz : z < 64) (hw : w < 64)
    (hlong : x = 0 → 16 ≤ y) (hlarge : x = 4 → y < 16) :
    ∃ c, form c = [UInt8.ofNat (x + 0xF0), UInt8.ofNat (y + 0x80), UInt8.ofNat (z + 0x80),
      UInt8.ofNat (w + 0x80)] := by
  obtain ⟨c, hc⟩ := @exists_form (x * 262144 + y * 4096 + z * 64 + w)
    (by rw [Nat.isValidChar]; omega)
  refine ⟨c, ?_⟩
  have hlead : (x * 262144 + y * 4096 + z * 64 + w) / 262144 % 8 = x := by omega
  have hsecond : (x * 262144 + y * 4096 + z * 64 + w) / 4096 % 64 = y := by omega
  have hthird : (x * 262144 + y * 4096 + z * 64 + w) / 64 % 64 = z := by omega
  have hlast : (x * 262144 + y * 4096 + z * 64 + w) % 64 = w := by omega
  rw [form, String.utf8EncodeChar, hc]
  simp only [hlead, hsecond, hthird, hlast]
  rw [if_neg (by omega), if_neg (by omega), if_neg (by omega)]

/-! ## The ranges of the bytes behind a lead byte -/

/-- The range of a second byte, which is narrower behind two of the lead bytes. -/
def narrowed (lead raised lowered : Nat) (low high : UInt8) : ByteRange where
  low := if lead = raised then low else 0x80
  high := if lead = lowered then high else 0xBF

theorem followers_eq (lead : UInt8) : followers lead =
    if lead.toNat < 0x80 then some []
    else if lead.toNat < 0xC2 then none
    else if lead.toNat < 0xE0 then some [continuation]
    else if lead.toNat < 0xF0 then
      some [narrowed lead.toNat 0xE0 0xED 0xA0 0x9F, continuation]
    else if lead.toNat < 0xF5 then
      some [narrowed lead.toNat 0xF0 0xF4 0x90 0x8F, continuation, continuation]
    else none := by
  simp only [followers, narrowed, UInt8.lt_iff_toNat_lt, UInt8.le_iff_toNat_le, Bool.and_eq_true,
    decide_eq_true_eq, beq_iff_eq, ← UInt8.toNat_inj, UInt8.reduceToNat]
  split_ifs <;> first | rfl | omega

def Follow (ranges : List ByteRange) (bytes : Text) : Prop :=
  List.Forall₂ (fun range b => range.holds b = true) ranges bytes

theorem ByteRange.holds_iff : range.holds b = true ↔
    range.low.toNat ≤ b.toNat ∧ b.toNat ≤ range.high.toNat := by
  simp [holds, UInt8.le_iff_toNat_le]

theorem continuation_holds_iff : continuation.holds b = true ↔
    0x80 ≤ b.toNat ∧ b.toNat < 0xC0 := by
  rw [ByteRange.holds_iff, Nat.lt_iff_le_pred (by decide)]
  rfl

theorem continuation_holds_ofNat (value : Nat) :
    continuation.holds (UInt8.ofNat (value % 64 + 0x80)) = true := by
  rw [continuation_holds_iff, toNat_ofNat_of_lt (by omega)]
  omega

theorem narrowed_holds_iff {value raised lowered : Nat} {low high : UInt8}
    (hlow : 0x80 ≤ low.toNat) (hhigh : high.toNat < 0xC0) :
    (narrowed value raised lowered low high).holds b = true ↔
      (0x80 ≤ b.toNat ∧ b.toNat < 0xC0) ∧ (value = raised → low.toNat ≤ b.toNat) ∧
        (value = lowered → b.toNat ≤ high.toNat) := by
  rw [ByteRange.holds_iff, narrowed]
  split_ifs <;> simp only [UInt8.reduceToNat] <;> omega

theorem follow_of_form {c : Char} (h : form c = lead :: rest) :
    ∃ ranges, followers lead = some ranges ∧ Follow ranges rest := by
  have hvalid : c.val.toNat.isValidChar := c.valid
  rw [Nat.isValidChar] at hvalid
  rw [form, String.utf8EncodeChar] at h
  generalize c.val.toNat = value at h hvalid
  have hlast := continuation_holds_ofNat
  split_ifs at h with hone htwo hthree
  all_goals
    obtain ⟨rfl, rfl⟩ := List.cons.inj h
    rw [followers_eq, toNat_ofNat_of_lt (by omega)]
  · rw [if_pos (by omega)]
    exact ⟨_, rfl, .nil⟩
  · rw [if_neg (by omega), if_neg (by omega), if_pos (by omega)]
    exact ⟨_, rfl, .cons (hlast _) .nil⟩
  · rw [if_neg (by omega), if_neg (by omega), if_neg (by omega), if_pos (by omega)]
    refine ⟨_, rfl, .cons ?_ (.cons (hlast _) .nil)⟩
    rw [narrowed_holds_iff (by decide) (by decide), toNat_ofNat_of_lt (by omega)]
    simp only [UInt8.reduceToNat]
    omega
  · rw [if_neg (by omega), if_neg (by omega), if_neg (by omega), if_neg (by omega),
      if_pos (by omega)]
    refine ⟨_, rfl, .cons ?_ (.cons (hlast _) (.cons (hlast _) .nil))⟩
    rw [narrowed_holds_iff (by decide) (by decide), toNat_ofNat_of_lt (by omega)]
    simp only [UInt8.reduceToNat]
    omega

theorem ofNat_sub_add {low : Nat} (h : low ≤ b.toNat) :
    UInt8.ofNat (b.toNat - low + low) = b := by
  rw [Nat.sub_add_cancel h, UInt8.ofNat_toNat]

theorem exists_form_of_follow (hlead : followers lead = some ranges) (h : Follow ranges rest) :
    ∃ c, form c = lead :: rest := by
  rw [followers_eq] at hlead
  split_ifs at hlead with hone hnone htwo hthree hfour
  all_goals obtain rfl := Option.some.inj hlead
  · cases h
    exact exists_form_one hone
  · obtain _ | @⟨_, second, _, _, hsecond, _ | _⟩ := h
    rw [continuation_holds_iff] at hsecond
    have hform := @exists_form_two (lead.toNat - 0xC0) (second.toNat - 0x80) (by omega) (by omega)
    rwa [ofNat_sub_add (by omega), ofNat_sub_add (by omega)] at hform
  · obtain _ | @⟨_, second, _, _, hsecond, _ | @⟨_, third, _, _, hthird, _ | _⟩⟩ := h
    rw [narrowed_holds_iff (by decide) (by decide)] at hsecond
    rw [continuation_holds_iff] at hthird
    simp only [UInt8.reduceToNat] at hsecond
    have hform := @exists_form_three (lead.toNat - 0xE0) (second.toNat - 0x80)
      (third.toNat - 0x80) (by omega) (by omega) (by omega) (by omega) (by omega)
    rwa [ofNat_sub_add (by omega), ofNat_sub_add (by omega), ofNat_sub_add (by omega)] at hform
  · obtain _ | @⟨_, second, _, _, hsecond,
      _ | @⟨_, third, _, _, hthird, _ | @⟨_, fourth, _, _, hfourth, _ | _⟩⟩⟩ := h
    rw [narrowed_holds_iff (by decide) (by decide)] at hsecond
    rw [continuation_holds_iff] at hthird hfourth
    simp only [UInt8.reduceToNat] at hsecond
    have hform := @exists_form_four (lead.toNat - 0xF0) (second.toNat - 0x80)
      (third.toNat - 0x80) (fourth.toNat - 0x80) (by omega) (by omega) (by omega) (by omega)
      (by omega) (by omega)
    rwa [ofNat_sub_add (by omega), ofNat_sub_add (by omega), ofNat_sub_add (by omega),
      ofNat_sub_add (by omega)] at hform

/-! ## Lead bytes and continuation bytes -/

theorem isContinuation_iff : isContinuation b = true ↔ 0x80 ≤ b.toNat ∧ b.toNat < 0xC0 :=
  continuation_holds_iff

theorem isContinuation_lead (h : followers lead = some ranges) : isContinuation lead = false := by
  rw [← Bool.not_eq_true, isContinuation_iff]
  rw [followers_eq] at h
  split_ifs at h <;> omega

def ByteRange.Continues (range : ByteRange) : Prop :=
  range.holds range.low = true ∧ ∀ b, range.holds b = true → isContinuation b = true

theorem continuation_continues : continuation.Continues := ⟨by decide, fun _ h => h⟩

theorem narrowed_continues {value raised lowered : Nat} {low high : UInt8}
    (hlow : continuation.holds low = true) (hhigh : continuation.holds high = true)
    (h : raised ≠ lowered) : (narrowed value raised lowered low high).Continues := by
  rw [continuation_holds_iff] at hlow hhigh
  have hholds {b : UInt8} :=
    @narrowed_holds_iff b value raised lowered low high hlow.1 hhigh.2
  refine ⟨hholds.mpr ?_, fun b hb => isContinuation_iff.mpr (hholds.mp hb).1⟩
  by_cases hvalue : value = raised
  · simp only [narrowed, if_pos hvalue]
    omega
  · simp only [narrowed, if_neg hvalue, UInt8.reduceToNat]
    omega

theorem continues_of_followers (h : followers lead = some ranges) (hrange : range ∈ ranges) :
    range.Continues := by
  rw [followers_eq] at h
  split_ifs at h
  all_goals obtain rfl := Option.some.inj h
  · cases hrange
  · rw [List.mem_singleton.mp hrange]
    exact continuation_continues
  · rcases List.mem_cons.mp hrange with rfl | hrange
    · exact narrowed_continues (by decide) (by decide) (by decide)
    · rw [List.mem_singleton.mp hrange]
      exact continuation_continues
  · rcases List.mem_cons.mp hrange with rfl | hrange
    · exact narrowed_continues (by decide) (by decide) (by decide)
    · rw [List.eq_of_mem_replicate (show range ∈ List.replicate 2 continuation from hrange)]
      exact continuation_continues

theorem exists_form_eq_cons (c : Char) : ∃ lead rest, form c = lead :: rest := by
  refine List.exists_cons_of_ne_nil fun hnil => ?_
  have hlength : (form c).length = c.utf8Size := String.length_utf8EncodeChar c
  rw [hnil] at hlength
  exact absurd hlength (Nat.ne_of_lt c.utf8Size_pos)

theorem isContinuation_of_form {c : Char} (h : form c = lead :: rest) :
    isContinuation lead = false ∧ ∀ b ∈ rest, isContinuation b = true := by
  obtain ⟨ranges, hlead, hfollow⟩ := follow_of_form h
  refine ⟨isContinuation_lead hlead, fun b hb => ?_⟩
  obtain ⟨i, hi, rfl⟩ := List.getElem_of_mem hb
  have hlength := List.Forall₂.length_eq hfollow
  exact (continues_of_followers hlead (List.getElem_mem (by omega))).2 _
    (List.Forall₂.get hfollow (by omega) hi)

/-! ## Beginnings of forms -/

theorem Follow.take (h : Follow ranges rest) (count : Nat) :
    Follow (ranges.take count) (rest.take count) := List.forall₂_take count h

theorem begins_form_iff :
    (∃ c, lead :: part <+: form c) ↔
      ∃ ranges, followers lead = some ranges ∧ Follow (ranges.take part.length) part := by
  constructor
  · rintro ⟨c, rest, hform⟩
    obtain ⟨ranges, hlead, hfollow⟩ := follow_of_form hform.symm
    refine ⟨ranges, hlead, ?_⟩
    have hpart := hfollow.take part.length
    rwa [List.append_eq, List.take_left] at hpart
  · rintro ⟨ranges, hlead, hfollow⟩
    -- The lowest bytes of the other ranges complete the form.
    have hrest : Follow (ranges.drop part.length) ((ranges.drop part.length).map (·.low)) := by
      rw [Follow, List.forall₂_map_right_iff, List.forall₂_same]
      exact fun range hrange =>
        (continues_of_followers hlead (List.mem_of_mem_drop hrange)).1
    have hall : Follow (ranges.take part.length ++ ranges.drop part.length)
        (part ++ (ranges.drop part.length).map (·.low)) := List.rel_append hfollow hrest
    rw [List.take_append_drop] at hall
    obtain ⟨c, hc⟩ := exists_form_of_follow hlead hall
    exact ⟨c, _, hc.symm⟩

/-! ## The accepted bytes -/

theorem accepted_le (ranges : List ByteRange) (rest : Text) :
    accepted ranges rest ≤ ranges.length ∧ accepted ranges rest ≤ rest.length := by
  fun_induction accepted ranges rest with
  | case1 range ranges b rest hholds ih => simpa using ih
  | case2 | case3 => simp

theorem follow_accepted (ranges : List ByteRange) (rest : Text) :
    Follow (ranges.take (accepted ranges rest)) (rest.take (accepted ranges rest)) := by
  fun_induction accepted ranges rest with
  | case1 range ranges b rest hholds ih => exact .cons hholds ih
  | case2 | case3 => exact .nil

theorem length_le_accepted (hpart : part <+: rest)
    (h : Follow (ranges.take part.length) part) : part.length ≤ accepted ranges rest := by
  fun_induction accepted ranges rest generalizing part with
  | case1 range ranges b rest hholds ih =>
      cases part with
      | nil => exact Nat.zero_le _
      | cons first part =>
          have hlater := (List.cons_prefix_cons.mp hpart).2
          cases h with
          | cons _ h => exact Nat.succ_le_succ (ih hlater h)
  | case2 range ranges b rest hholds =>
      cases part with
      | nil => exact Nat.zero_le _
      | cons first part =>
          obtain ⟨rfl, -⟩ := List.cons_prefix_cons.mp hpart
          cases h with
          | cons hfirst _ => exact absurd hfirst hholds
  | case3 ranges rest hempty =>
      cases part with
      | nil => exact Nat.zero_le _
      | cons first part =>
          obtain ⟨later, rfl⟩ := hpart
          cases ranges with
          | nil => cases h
          | cons range ranges => exact absurd rfl (hempty _ _ _ _ rfl)

end LatexIntegrity.Utf8
