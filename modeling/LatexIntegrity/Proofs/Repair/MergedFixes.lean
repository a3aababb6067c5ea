import Mathlib.Algebra.GroupWithZero.Nat
import Mathlib.Data.List.Basic
import LatexIntegrity.Proofs.Repair.FixList

/-!
# The merged list of fixes

Merging goes through the fixes of all rounds in their order.  A fix that is applied is always
listed, and a fix that is left undone where its name and its description come up for the first
time.  Where one round ends and the next one begins does not matter.
-/

namespace LatexIntegrity.Fix

/--
The fix at a place of a list is applied, or no fix left undone before it has its name and its
description.
-/
def IsListedAt (fixes : List Fix) (place : Nat) : Prop :=
  ∃ fix, fixes[place]? = some fix ∧ (fix.applied = true ∨
    ∀ earlier < place, ∀ other, fixes[earlier]? = some other → other.applied = false →
      (other.name, other.description) ≠ (fix.name, fix.description))

variable {fixes listed later : List Fix} {fix : Fix} {place : Nat}

/-! ## One fix -/

theorem insert_eq_append (listed : List Fix) (fix : Fix) :
    insert listed fix = listed ++ if isRepeat listed fix then [] else [fix] := by
  unfold insert
  split
  · rw [List.append_nil]
  · rfl

theorem merge_concat (listed later : List Fix) (fix : Fix) :
    merge listed (later ++ [fix]) = insert (merge listed later) fix := by
  simp [merge]

theorem isRepeat_merge_nil (fixes : List Fix) (fix : Fix) :
    isRepeat (merge [] fixes) fix = isRepeat fixes fix := by
  rw [isRepeat, isRepeat, Bool.eq_iff_iff, Bool.and_eq_true, Bool.and_eq_true,
    List.contains_iff_mem, List.contains_iff_mem, mem_merge]
  simp

theorem isRepeat_eq_false_iff : isRepeat fixes fix = false ↔ fix.applied = true ∨
    ∀ other ∈ fixes, other.applied = false →
      (other.name, other.description) ≠ (fix.name, fix.description) := by
  obtain ⟨name, description, applied⟩ := fix
  cases applied with
  | true => simp [isRepeat]
  | false =>
      rw [isRepeat, Bool.not_false, Bool.true_and, List.contains_eq_mem, decide_eq_false_iff_not,
        or_iff_right Bool.false_ne_true]
      constructor
      · rintro hnot ⟨_, _, _⟩ hother rfl hsame
        obtain ⟨rfl, rfl⟩ := Prod.mk.inj hsame
        exact hnot hother
      · exact fun hnone hmem => hnone _ hmem rfl rfl

/-! ## All fixes -/

theorem IsListedAt.lt_length (h : IsListedAt fixes place) : place < fixes.length := by
  obtain ⟨fix, hfix, -⟩ := h
  exact (List.getElem?_eq_some_iff.mp hfix).1

theorem isListedAt_append_iff (hlt : place < fixes.length) :
    IsListedAt (fixes ++ later) place ↔ IsListedAt fixes place := by
  have hbefore : ∀ earlier ≤ place, (fixes ++ later)[earlier]? = fixes[earlier]? :=
    fun earlier hearlier => List.getElem?_append_left (Nat.lt_of_le_of_lt hearlier hlt)
  unfold IsListedAt
  rw [hbefore place (Nat.le_refl place)]
  refine exists_congr fun fix => and_congr_right fun _ => or_congr_right ?_
  exact forall₂_congr fun earlier hearlier => by rw [hbefore earlier (Nat.le_of_lt hearlier)]

theorem isListedAt_concat_length :
    IsListedAt (fixes ++ [fix]) fixes.length ↔ isRepeat fixes fix = false := by
  have hmem : (∀ earlier < fixes.length, ∀ other, (fixes ++ [fix])[earlier]? = some other →
      other.applied = false → (other.name, other.description) ≠ (fix.name, fix.description)) ↔
        ∀ other ∈ fixes, other.applied = false →
          (other.name, other.description) ≠ (fix.name, fix.description) := by
    constructor
    · intro hnone other hother
      obtain ⟨earlier, hlt, hget⟩ := List.getElem_of_mem hother
      refine hnone earlier hlt other ?_
      rw [List.getElem?_append_left hlt, List.getElem?_eq_getElem hlt, hget]
    · intro hnone earlier hlt other hother
      rw [List.getElem?_append_left hlt] at hother
      exact hnone other (List.mem_of_getElem? hother)
  rw [isRepeat_eq_false_iff, ← hmem, IsListedAt, List.getElem?_concat_length]
  constructor
  · rintro ⟨_, ⟨⟩, hlisted⟩
    exact hlisted
  · exact fun hlisted => ⟨fix, rfl, hlisted⟩

theorem isListedAt_concat_iff : IsListedAt (fixes ++ [fix]) place ↔
    IsListedAt fixes place ∨ place = fixes.length ∧ isRepeat fixes fix = false := by
  rcases Nat.lt_trichotomy place fixes.length with hplace | rfl | hplace
  · rw [isListedAt_append_iff hplace, or_iff_left fun h => Nat.ne_of_lt hplace h.1]
  · rw [isListedAt_concat_length, or_iff_right fun h => absurd h.lt_length (Nat.lt_irrefl _)]
    simp
  · refine iff_of_false (fun h => ?_) (not_or.mpr ⟨fun h => ?_, fun h => ?_⟩)
    · have hlt := h.lt_length
      rw [List.length_append, List.length_singleton] at hlt
      omega
    · have hlt := h.lt_length
      omega
    · omega

theorem exists_places_merge (fixes : List Fix) :
    ∃ places : List Nat, places.Pairwise (· < ·) ∧
      (∀ place, place ∈ places ↔ IsListedAt fixes place) ∧
        merge [] fixes = places.filterMap (fixes[·]?) := by
  induction fixes using List.reverseRecOn with
  | nil => exact ⟨[], .nil, fun place => by simp [IsListedAt], rfl⟩
  | append_singleton fixes last ih =>
      obtain ⟨places, hrising, hplaces, hmerged⟩ := ih
      have hlt : ∀ place ∈ places, place < fixes.length :=
        fun place hplace => ((hplaces place).mp hplace).lt_length
      have hsame : places.filterMap ((fixes ++ [last])[·]?) = places.filterMap (fixes[·]?) :=
        List.filterMap_congr fun place hplace => List.getElem?_append_left (hlt place hplace)
      rw [merge_concat, insert_eq_append, isRepeat_merge_nil, hmerged]
      simp only [isListedAt_concat_iff, ← hplaces]
      cases isRepeat fixes last with
      | true => exact ⟨places, hrising, by simp, by simp [hsame]⟩
      | false =>
          refine ⟨places ++ [fixes.length], ?_, by simp, ?_⟩
          · exact List.pairwise_append.mpr ⟨hrising, List.pairwise_singleton _ _, by simpa⟩
          · rw [List.filterMap_append, hsame]
            simp

/-! ## Rounds -/

theorem foldl_merge (listed : List Fix) (rounds : List (List Fix)) :
    rounds.foldl merge listed = merge listed rounds.flatten :=
  List.foldl_flatten.symm

theorem countApplied_insert (listed : List Fix) (fix : Fix) :
    countApplied (insert listed fix) = countApplied listed + countApplied [fix] := by
  rw [insert_eq_append, countApplied, List.countP_append]
  split
  · next hrepeat =>
      rw [isRepeat, Bool.and_eq_true, Bool.not_eq_true'] at hrepeat
      simp [countApplied, hrepeat.1]
  · rfl

theorem countApplied_merge (listed later : List Fix) :
    countApplied (merge listed later) = countApplied listed + countApplied later := by
  induction later using List.reverseRecOn with
  | nil => rfl
  | append_singleton later last ih =>
      rw [merge_concat, countApplied_insert, ih, Nat.add_assoc]
      simp [countApplied]

/--
The merged list of some rounds consists of the fixes of all of them in their order, without
those left undone whose name and description an earlier fix left undone has.  So it is the same
for any other division into rounds, and it has as many applied fixes as the rounds together.
-/
theorem mergedRounds_exact (rounds : List (List Fix)) :
    (∃ places : List Nat, places.Pairwise (· < ·) ∧
      (∀ place, place ∈ places ↔ IsListedAt rounds.flatten place) ∧
        rounds.foldl merge [] = places.filterMap (rounds.flatten[·]?)) ∧
      (∀ others : List (List Fix), others.flatten = rounds.flatten →
        others.foldl merge [] = rounds.foldl merge []) ∧
      countApplied (rounds.foldl merge []) = (rounds.map countApplied).sum := by
  refine ⟨?_, fun others hothers => ?_, ?_⟩
  · rw [foldl_merge]
    exact exists_places_merge rounds.flatten
  · rw [foldl_merge, foldl_merge, hothers]
  · rw [foldl_merge, countApplied_merge]
    exact (Nat.zero_add _).trans List.countP_flatten

/-- A repeat inside a round, one in a later round, and an applied fix with the same name. -/
theorem mergedRounds_exact_divided :
    let undone : Fix := ⟨"remove", "inside mathematics", false⟩
    let applied : Fix := { undone with applied := true }
    let rounds := [[undone, undone], [applied, undone], [applied]]
    let others := [[undone], [], [undone, applied, undone, applied]]
    others.flatten = rounds.flatten ∧
      others.foldl merge [] = rounds.foldl merge [] ∧
        rounds.foldl merge [] = [undone, applied, applied] := by
  intro undone applied rounds others
  have hsame : others.flatten = rounds.flatten := rfl
  exact ⟨hsame, (mergedRounds_exact rounds).2.1 others hsame, by decide⟩

end LatexIntegrity.Fix
