import Mathlib.Data.List.Nodup
import Mathlib.Data.List.Pairwise
import LatexIntegrity.Proofs.Edit.Splice

/-!
# The order of edits

Edits are applied from the last offset to the first.  Read backwards this is the order of
the text: at each offset the insertions in the order of their recording, and behind them
the replacement.
-/

namespace LatexIntegrity.Edit

theorem precedes_iff {first second : Edit × Nat} :
    precedes first second = true ↔
      second.1.offset < first.1.offset ∨
        second.1.offset = first.1.offset ∧
          (first.1.isInsertion = false ∧ second.1.isInsertion = true ∨
            first.1.isInsertion = second.1.isInsertion ∧ second.2 ≤ first.2) := by
  unfold precedes
  by_cases hoffset : first.1.offset = second.1.offset
  · cases hfirst : first.1.isInsertion <;> cases hsecond : second.1.isInsertion <;>
      simp [hoffset]
  · simp [hoffset, Ne.symm hoffset]

theorem precedes_trans (first second third : Edit × Nat) (h : precedes first second = true)
    (h' : precedes second third = true) : precedes first third = true := by
  rw [precedes_iff] at h h' ⊢
  rcases h with h | ⟨hoffset, h⟩
  · left
    rcases h' with h' | ⟨hoffset', -⟩ <;> omega
  · rcases h' with h' | ⟨hoffset', h'⟩
    · left
      omega
    · right
      refine ⟨hoffset'.trans hoffset, ?_⟩
      rcases h with ⟨hfirst, hsecond⟩ | ⟨hside, hle⟩
      · rcases h' with ⟨hsecond', -⟩ | ⟨hside', -⟩
        · simp [hsecond] at hsecond'
        · exact .inl ⟨hfirst, hside' ▸ hsecond⟩
      · rcases h' with ⟨hsecond', hthird⟩ | ⟨hside', hle'⟩
        · exact .inl ⟨hside.trans hsecond', hthird⟩
        · exact .inr ⟨hside.trans hside', Nat.le_trans hle' hle⟩

theorem precedes_total (first second : Edit × Nat) :
    (precedes first second || precedes second first) = true := by
  rw [Bool.or_eq_true, precedes_iff, precedes_iff]
  cases first.1.isInsertion <;> cases second.1.isInsertion <;> simp <;> omega

theorem number_eq_of_precedes {first second : Edit × Nat} (h : precedes first second = true)
    (h' : precedes second first = true) : first.2 = second.2 := by
  rw [precedes_iff] at h h'
  rcases h with h | ⟨hoffset, ⟨hfirst, hsecond⟩ | ⟨hside, hle⟩⟩
  · omega
  · simp [hfirst, hsecond] at h'
    omega
  · rcases h' with h' | ⟨-, ⟨hsecond, hfirst⟩ | ⟨-, hge⟩⟩
    · omega
    · simp [hside, hsecond] at hfirst
    · omega

/--
Items in the order in which their edits stand in a text of some length: at each offset the
insertions, then the replacements, and otherwise as they come.
-/
def arrange {α : Type} (edit : α → Edit) (length : Nat) (items : List α) : List α :=
  (List.range (length + 1)).flatMap fun offset =>
    items.filter (fun item => (edit item).offset == offset && (edit item).isInsertion) ++
      items.filter (fun item => (edit item).offset == offset && !(edit item).isInsertion)

def inTextOrder (length : Nat) (edits : List Edit) : List Edit := arrange id length edits

theorem mem_arrange {α : Type} {edit : α → Edit} {length : Nat} {items : List α} {item : α} :
    item ∈ arrange edit length items ↔ item ∈ items ∧ (edit item).offset ≤ length := by
  simp only [arrange, List.mem_flatMap, List.mem_range, List.mem_append, List.mem_filter,
    Bool.and_eq_true, beq_iff_eq, Bool.not_eq_true']
  constructor
  · rintro ⟨offset, hoffset, ⟨hitem, rfl, -⟩ | ⟨hitem, rfl, -⟩⟩
    · exact ⟨hitem, by omega⟩
    · exact ⟨hitem, by omega⟩
  · rintro ⟨hitem, hle⟩
    refine ⟨(edit item).offset, by omega, ?_⟩
    cases (edit item).isInsertion <;> simp [hitem]

theorem map_arrange {α : Type} (edit : α → Edit) (length : Nat) (items : List α) :
    (arrange edit length items).map edit = inTextOrder length (items.map edit) := by
  simp [arrange, inTextOrder, List.map_flatMap, List.filter_map, Function.comp_def]

theorem flatMap_range_perm {α : Type} (edit : α → Edit) (items : List α) (bound : Nat) :
    ((List.range bound).flatMap fun offset =>
      items.filter (fun item => (edit item).offset == offset && (edit item).isInsertion) ++
        items.filter (fun item => (edit item).offset == offset && !(edit item).isInsertion)).Perm
      (items.filter fun item => (edit item).offset < bound) := by
  induction bound with
  | zero => simp
  | succ bound ih =>
      have hsides := List.filter_append_perm (fun item => (edit item).isInsertion)
        (items.filter fun item => (edit item).offset == bound)
      have hbounds := List.filter_append_perm (fun item => decide ((edit item).offset < bound))
        (items.filter fun item => decide ((edit item).offset < bound + 1))
      rw [List.filter_filter, List.filter_filter] at hsides hbounds
      have hbelow : ∀ item, (decide ((edit item).offset < bound) &&
          decide ((edit item).offset < bound + 1)) = decide ((edit item).offset < bound) := by
        intro item
        rw [Bool.eq_iff_iff]
        simp
        omega
      have hhere : ∀ item, (!decide ((edit item).offset < bound) &&
          decide ((edit item).offset < bound + 1)) = ((edit item).offset == bound) := by
        intro item
        rw [Bool.eq_iff_iff]
        simp
        omega
      simp only [hbelow, hhere] at hbounds
      simp only [Bool.and_comm] at hsides
      rw [List.range_succ, List.flatMap_append, List.flatMap_singleton]
      exact (ih.append hsides).trans hbounds

theorem arrange_perm {α : Type} {edit : α → Edit} {length : Nat} {items : List α}
    (h : ∀ item ∈ items, (edit item).offset ≤ length) : (arrange edit length items).Perm items := by
  have hall : (items.filter fun item => (edit item).offset < length + 1) = items := by
    rw [List.filter_eq_self]
    intro item hitem
    have := h item hitem
    simp
    omega
  have hperm := flatMap_range_perm edit items (length + 1)
  rwa [hall] at hperm

theorem pairwise_arrange {α : Type} {edit : α → Edit} {length : Nat} {items : List α}
    {r : α → α → Prop}
    (hsame : items.Pairwise fun first second => (edit first).offset = (edit second).offset →
      (edit first).isInsertion = (edit second).isInsertion → r first second)
    (hsides : ∀ first ∈ items, ∀ second ∈ items, (edit first).offset = (edit second).offset →
      (edit first).isInsertion = true → (edit second).isInsertion = false → r first second)
    (hoffsets : ∀ first ∈ items, ∀ second ∈ items,
      (edit first).offset < (edit second).offset → r first second) :
    (arrange edit length items).Pairwise r := by
  have hmem : ∀ {offset item}, item ∈ items.filter (fun item =>
        (edit item).offset == offset && (edit item).isInsertion) ++
      items.filter (fun item => (edit item).offset == offset && !(edit item).isInsertion) →
      item ∈ items ∧ (edit item).offset = offset := by
    intro offset item hitem
    simp only [List.mem_append, List.mem_filter, Bool.and_eq_true, beq_iff_eq] at hitem
    rcases hitem with ⟨hitem, hoffset, -⟩ | ⟨hitem, hoffset, -⟩ <;> exact ⟨hitem, hoffset⟩
  unfold arrange
  rw [List.pairwise_flatMap]
  constructor
  · intro offset _
    refine List.pairwise_append.mpr ⟨?_, ?_, ?_⟩
    · apply (hsame.filter _).imp_of_mem
      intro first second hfirst hsecond himp
      simp only [List.mem_filter, Bool.and_eq_true, beq_iff_eq] at hfirst hsecond
      exact himp (hfirst.2.1.trans hsecond.2.1.symm) (hfirst.2.2.trans hsecond.2.2.symm)
    · apply (hsame.filter _).imp_of_mem
      intro first second hfirst hsecond himp
      simp only [List.mem_filter, Bool.and_eq_true, beq_iff_eq, Bool.not_eq_true'] at hfirst hsecond
      exact himp (hfirst.2.1.trans hsecond.2.1.symm) (hfirst.2.2.trans hsecond.2.2.symm)
    · intro first hfirst second hsecond
      simp only [List.mem_filter, Bool.and_eq_true, beq_iff_eq, Bool.not_eq_true'] at hfirst hsecond
      exact hsides first hfirst.1 second hsecond.1 (hfirst.2.1.trans hsecond.2.1.symm)
        hfirst.2.2 hsecond.2.2
  · apply List.pairwise_lt_range.imp
    intro offset other hlt first hfirst second hsecond
    obtain ⟨hfirst, hoffset⟩ := hmem hfirst
    obtain ⟨hsecond, hother⟩ := hmem hsecond
    exact hoffsets first hfirst second hsecond (by rwa [hoffset, hother])

theorem arrange_eq_of_perm {α : Type} {edit : α → Edit} {length : Nat} {items sorted : List α}
    (hperm : sorted.Perm items)
    (hsorted : sorted.Pairwise fun first second => (edit first).offset < (edit second).offset)
    (hle : ∀ item ∈ items, (edit item).offset ≤ length) :
    arrange edit length items = sorted := by
  have hdistinct : items.Pairwise fun first second =>
      (edit first).offset ≠ (edit second).offset := by
    rw [← hperm.pairwise_iff fun h => Ne.symm h]
    exact hsorted.imp Nat.ne_of_lt
  refine List.Perm.eq_of_pairwise ?_ ?_ hsorted ((arrange_perm hle).trans hperm.symm)
  · intro first second _ _ hlt hgt
    omega
  · apply pairwise_arrange
    · exact hdistinct.imp fun hne heq => absurd heq hne
    · intro first hfirst second hsecond heq hside hside'
      have hne : first ≠ second := by
        rintro rfl
        simp [hside] at hside'
      have : Std.Symm fun first second : α => (edit first).offset ≠ (edit second).offset :=
        ⟨fun _ _ => Ne.symm⟩
      exact absurd heq (hdistinct.forall hfirst hsecond hne)
    · exact fun _ _ _ _ hlt => hlt

theorem pairwise_arrange_zipIdx (length : Nat) (edits : List Edit) :
    (arrange (·.1) length edits.zipIdx).Pairwise fun first second =>
      precedes second first = true := by
  have hnumbers : edits.zipIdx.Pairwise fun first second => first.2 < second.2 := by
    rw [← List.pairwise_map (f := Prod.snd), List.zipIdx_map_snd]
    exact List.pairwise_lt_range'
  apply pairwise_arrange
  · apply hnumbers.imp
    intro first second hlt hoffset hside
    exact precedes_iff.mpr (.inr ⟨hoffset, .inr ⟨hside.symm, Nat.le_of_lt hlt⟩⟩)
  · intro first _ second _ hoffset hfirst hsecond
    exact precedes_iff.mpr (.inr ⟨hoffset, .inl ⟨hsecond, hfirst⟩⟩)
  · intro first _ second _ hlt
    exact precedes_iff.mpr (.inl hlt)

/-- The edits are applied in the reverse of their order in the text. -/
theorem applicationOrder_eq {length : Nat} {edits : List Edit}
    (h : ∀ edit ∈ edits, edit.offset ≤ length) :
    applicationOrder edits = (inTextOrder length edits).reverse := by
  have hperm : (edits.zipIdx.mergeSort precedes).Perm
      (arrange (·.1) length edits.zipIdx).reverse := by
    apply (List.mergeSort_perm _ _).trans
    apply ((List.reverse_perm _).trans (arrange_perm _)).symm
    exact fun numbered hnumbered => h _ (List.fst_mem_of_mem_zipIdx hnumbered)
  have hsame : edits.zipIdx.mergeSort precedes =
      (arrange (·.1) length edits.zipIdx).reverse := by
    refine List.Perm.eq_of_pairwise ?_
      (List.pairwise_mergeSort precedes_trans precedes_total _)
      (List.pairwise_reverse.mpr (pairwise_arrange_zipIdx length edits)) hperm
    intro first second hfirst hsecond hle hge
    rw [List.mem_mergeSort, List.mem_zipIdx_iff_getElem?] at hfirst
    rw [List.mem_reverse, mem_arrange, List.mem_zipIdx_iff_getElem?] at hsecond
    have hnumber := number_eq_of_precedes hle hge
    rw [hnumber] at hfirst
    exact Prod.ext (Option.some.inj (hfirst.symm.trans hsecond.1)) hnumber
  rw [applicationOrder, hsame, List.map_reverse, map_arrange, List.zipIdx_map_fst]

theorem follow_inTextOrder {length : Nat} {edits : List Edit} (h : edits.Pairwise IsApart) :
    Follow (inTextOrder length edits) := by
  apply pairwise_arrange
  · apply h.imp
    intro first second hapart hoffset hside
    simp only [id, isInsertion] at hoffset hside
    unfold IsApart at hapart
    by_cases hlength : first.length = 0
    · simp [hlength, hoffset]
    · have hne : second.length ≠ 0 := by simpa [hlength] using hside
      omega
  · intro first _ second _ hoffset hfirst _
    simp only [id, isInsertion, beq_iff_eq] at hoffset hfirst
    simp [hfirst, hoffset]
  · intro first hfirst second hsecond hlt
    have hapart := h.forall hfirst hsecond (by rintro rfl; simp at hlt)
    simp only [id] at hlt
    unfold IsApart at hapart
    omega

theorem inTextOrder_concat {length : Nat} {edits : List Edit} {edit : Edit}
    (hapart : edits.Pairwise IsApart) (hpos : ∀ other ∈ edits, 0 < other.length)
    (hbefore : ∀ other ∈ edits, other.offset + other.length ≤ edit.offset)
    (hle : edit.offset ≤ length) :
    inTextOrder length (edits ++ [edit]) = inTextOrder length edits ++ [edit] := by
  have hoffsets : ∀ other ∈ edits, other.offset ≤ length := by
    intro other hother
    have := hbefore other hother
    omega
  have hmem : ∀ {other}, other ∈ inTextOrder length edits → other ∈ edits :=
    fun hother => (mem_arrange.mp hother).1
  apply arrange_eq_of_perm
  · exact (arrange_perm hoffsets).append_right _
  · refine List.pairwise_append.mpr ⟨?_, List.pairwise_singleton _ _, ?_⟩
    · apply (follow_inTextOrder hapart).imp_of_mem
      intro first second hfirst _ hle
      have := hpos first (hmem hfirst)
      simp only [id]
      omega
    · intro other hother last hlast
      rw [List.mem_singleton.mp hlast]
      have := hpos other (hmem hother)
      have := hbefore other (hmem hother)
      simp only [id]
      omega
  · intro other hother
    rcases List.mem_append.mp hother with hother | hother
    · exact hoffsets other hother
    · rw [List.mem_singleton.mp hother]
      exact hle

end LatexIntegrity.Edit
