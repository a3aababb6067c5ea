import Mathlib.Data.List.Infix
import LatexIntegrity.Text.Basic

/-!
# Occurrences of a text

A search that goes on behind each occurrence finds occurrences only, and it misses none
but those that overlap one that it has found.
-/

namespace LatexIntegrity.Text

theorem contains_cons (needle : Text) (b : UInt8) (rest : Text) :
    contains needle (b :: rest) = (needle.isPrefixOf (b :: rest) || contains needle rest) := by
  rw [contains, search, contains]
  split
  · next hhere => simp [hhere]
  · next hhere => simp [hhere]

theorem isPrefix_drop_of_search {needle text : Text} {distance : Nat}
    (h : search needle text = some distance) : needle <+: text.drop distance := by
  induction text generalizing distance with
  | nil =>
      obtain ⟨hempty, -⟩ := Option.ite_none_right_eq_some.mp h
      rw [List.isEmpty_iff.mp hempty]
      exact List.nil_prefix
  | cons b rest ih =>
      rw [search] at h
      split at h
      · next hhere =>
          cases h
          exact List.isPrefixOf_iff_prefix.mp hhere
      · obtain ⟨behind, hbehind, rfl⟩ := Option.map_eq_some_iff.mp h
        exact ih hbehind

theorem not_isPrefix_of_lt_search {needle text : Text} {distance earlier : Nat}
    (h : search needle text = some distance) (hlt : earlier < distance) :
    ¬needle <+: text.drop earlier := by
  induction text generalizing distance earlier with
  | nil =>
      obtain ⟨-, hzero⟩ := Option.ite_none_right_eq_some.mp h
      cases hzero
      omega
  | cons b rest ih =>
      rw [search] at h
      split at h
      · cases h
        omega
      · next hhere =>
          obtain ⟨behind, hbehind, rfl⟩ := Option.map_eq_some_iff.mp h
          cases earlier with
          | zero => simpa [List.isPrefixOf_iff_prefix] using hhere
          | succ earlier => exact ih hbehind (by omega)

theorem prefix_of_mem_occurrencesFrom {needle text : Text} {start offset : Nat}
    (h : offset ∈ occurrencesFrom needle start text) :
    ∃ distance, offset = start + distance ∧ needle <+: text.drop distance := by
  fun_induction occurrencesFrom needle start text with
  | case1 => cases h
  | case2 start b rest hhere width ih =>
      rcases List.mem_cons.mp h with rfl | h
      · exact ⟨0, rfl, List.isPrefixOf_iff_prefix.mp hhere⟩
      · obtain ⟨distance, rfl, hstarts⟩ := ih h
        refine ⟨width + distance, by omega, ?_⟩
        rwa [← List.drop_drop, List.drop_cons (by omega)]
  | case3 start b rest hhere ih =>
      obtain ⟨distance, rfl, hstarts⟩ := ih h
      exact ⟨distance + 1, by omega, hstarts⟩

theorem mem_occurrencesFrom_or {needle : Text} (hneedle : needle ≠ []) (start : Nat)
    (text : Text) : ∀ distance, needle <+: text.drop distance →
      start + distance ∈ occurrencesFrom needle start text ∨
        ∃ offset ∈ occurrencesFrom needle start text,
          offset < start + distance ∧ start + distance < offset + needle.length := by
  fun_induction occurrencesFrom needle start text with
  | case1 => simp [hneedle]
  | case2 start b rest hhere width ih =>
      intro distance h
      have hwidth : width = needle.length := by
        have := List.length_pos_iff.mpr hneedle
        omega
      by_cases hinside : distance < width
      · cases distance with
        | zero => exact .inl List.mem_cons_self
        | succ distance => exact .inr ⟨start, List.mem_cons_self, by omega, by omega⟩
      · obtain ⟨behind, rfl⟩ := Nat.exists_eq_add_of_le (Nat.not_lt.mp hinside)
        rw [← List.drop_drop, List.drop_cons (by omega)] at h
        rw [← Nat.add_assoc]
        refine (ih behind h).imp (List.mem_cons_of_mem _) ?_
        exact fun ⟨offset, hoffset, hbounds⟩ => ⟨offset, List.mem_cons_of_mem _ hoffset, hbounds⟩
  | case3 start b rest hhere ih =>
      intro distance h
      cases distance with
      | zero => exact absurd (List.isPrefixOf_iff_prefix.mpr h) hhere
      | succ distance =>
          have hrest := ih distance h
          rwa [Nat.add_assoc, Nat.add_comm 1] at hrest

/-- No end of the text that is shorter than the text itself is also a beginning of it. -/
def HasNoBorder (needle : Text) : Prop :=
  ∀ place < needle.length, 0 < place → ¬needle.drop place <+: needle

theorem mem_occurrences_iff {needle text : Text} (hneedle : needle ≠ [])
    (hborder : needle.HasNoBorder) {offset : Nat} :
    offset ∈ occurrences needle text ↔ needle <+: text.drop offset := by
  constructor
  · intro h
    obtain ⟨distance, rfl, hstarts⟩ := prefix_of_mem_occurrencesFrom h
    rwa [Nat.zero_add]
  · intro h
    have hfound := mem_occurrencesFrom_or hneedle 0 text offset h
    rw [Nat.zero_add] at hfound
    rcases hfound with hfound | ⟨earlier, hearlier, hbefore, hbehind⟩
    · exact hfound
    · obtain ⟨distance, rfl, rest, hrest⟩ := prefix_of_mem_occurrencesFrom hearlier
      rw [Nat.zero_add] at hbefore hbehind
      -- The end of the earlier occurrence stands at the head of this one.
      have hend : needle.drop (offset - distance) <+: text.drop offset := by
        refine ⟨rest, ?_⟩
        rw [← List.drop_append_of_le_length (by omega), hrest, List.drop_drop]
        congr 1
        omega
      have hshort : needle.drop (offset - distance) <+: needle :=
        List.prefix_of_prefix_length_le hend h (by simp)
      exact absurd hshort (hborder _ (by omega) (by omega))

theorem pairwise_occurrencesFrom (needle : Text) (start : Nat) (text : Text) :
    (∀ offset ∈ occurrencesFrom needle start text, start ≤ offset) ∧
      (occurrencesFrom needle start text).Pairwise (· < ·) := by
  fun_induction occurrencesFrom needle start text with
  | case1 => exact ⟨List.forall_mem_nil _, .nil⟩
  | case2 start b rest hhere width ih =>
      obtain ⟨hbound, hsorted⟩ := ih
      refine ⟨List.forall_mem_cons.mpr ⟨Nat.le_refl start, fun offset hoffset => ?_⟩,
        List.pairwise_cons.mpr ⟨fun offset hoffset => ?_, hsorted⟩⟩
      · have := hbound offset hoffset
        omega
      · have := hbound offset hoffset
        omega
  | case3 start b rest hhere ih =>
      obtain ⟨hbound, hsorted⟩ := ih
      exact ⟨fun offset hoffset => Nat.le_of_succ_le (hbound offset hoffset), hsorted⟩

end LatexIntegrity.Text
