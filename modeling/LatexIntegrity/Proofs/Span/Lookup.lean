import LatexIntegrity.Proofs.Span.Tiling

/-!
# Looking up an offset

The check of a list of spans accepts the partitions of a document and nothing else.  In a
partition, the span that the binary search finds at an offset is the only one that holds it.
-/

namespace LatexIntegrity

namespace Span

structure IsPartition (length : Nat) (spans : List Span) : Prop where
  start : spans.head?.map Span.start = some 0
  nonempty : ∀ span ∈ spans, span.start < span.stop
  contiguous : spans.IsChain fun first second => second.start = first.stop
  merged : spans.IsChain IsMerged
  stop : spans.getLast?.map Span.stop = some length

variable {length start stop offset : Nat} {spans : List Span}

/-! ## The check -/

theorem tiles_cons_iff {first : Span} {rest : List Span} :
    Tiles stop start (first :: rest) ↔
      first.start = start ∧ (∀ span ∈ first :: rest, span.start < span.stop) ∧
        (first :: rest).IsChain (fun first second => second.start = first.stop) ∧
          (first :: rest).getLast?.map Span.stop = some stop := by
  induction rest generalizing start first with
  | nil =>
      simp only [Tiles, List.mem_singleton, forall_eq, List.IsChain.singleton,
        List.getLast?_singleton, Option.map_some, Option.some.injEq, true_and]
      constructor <;> rintro ⟨rfl, hpos, hstop⟩ <;> exact ⟨rfl, hpos, hstop⟩
  | cons second others ih =>
      rw [Tiles, ih, List.isChain_cons_cons, List.getLast?_cons_cons]
      constructor
      · rintro ⟨rfl, hpos, hnext, hothers, hchain, hlast⟩
        exact ⟨rfl, List.forall_mem_cons.mpr ⟨hpos, hothers⟩, ⟨hnext, hchain⟩, hlast⟩
      · rintro ⟨rfl, hall, ⟨hnext, hchain⟩, hlast⟩
        obtain ⟨hpos, hothers⟩ := List.forall_mem_cons.mp hall
        exact ⟨rfl, hpos, hnext, hothers, hchain, hlast⟩

theorem partitionFault?_eq_none_iff :
    partitionFault? spans length = none ↔ spans = [] ∧ length = 0 ∨ IsPartition length spans := by
  cases spans with
  | nil =>
      have hnot : ¬IsPartition length [] := fun h => by simpa using h.start
      simp [partitionFault?, hnot]
  | cons first rest =>
      simp only [partitionFault?, List.isEmpty_cons, Bool.false_eq_true, if_false,
        partitionFaultFrom?_eq_none_iff, tiles_cons_iff, reduceCtorEq, false_and, false_or,
        false_imp_iff, true_and]
      constructor
      · rintro ⟨⟨hstart, hpos, hnext, hlast⟩, hmerged⟩
        exact ⟨congrArg some hstart, hpos, hnext, hmerged, hlast⟩
      · rintro ⟨hstart, hpos, hnext, hmerged, hlast⟩
        exact ⟨⟨Option.some.inj hstart, hpos, hnext, hlast⟩, hmerged⟩

/-! ## The search -/

theorem Tiles.holdsAt_unique (h : Tiles stop start spans) {index other : Nat}
    (hindex : HoldsAt spans offset index) (hother : HoldsAt spans offset other) :
    index = other := by
  obtain ⟨first, hfirst, hoffset⟩ := hindex
  obtain ⟨second, hsecond, hoffset'⟩ := hother
  simp only [contains, Bool.and_eq_true, decide_eq_true_eq] at hoffset hoffset'
  obtain ⟨hlt, rfl⟩ := List.getElem?_eq_some_iff.mp hfirst
  obtain ⟨hlt', rfl⟩ := List.getElem?_eq_some_iff.mp hsecond
  have hordered := List.pairwise_iff_getElem.mp h.pairwise
  rcases Nat.lt_trichotomy index other with hbefore | heq | hbehind
  · have := hordered index other hlt hlt' hbefore
    omega
  · exact heq
  · have := hordered other index hlt' hlt hbehind
    omega

theorem Tiles.exists_find? (h : Tiles stop start spans) (hstart : start ≤ offset)
    (hstop : offset < stop) : ∃ index, find? spans offset = some index := by
  obtain ⟨span, hspan, hoffset⟩ := h.exists_contains hstart hstop
  have hfound := h.findAt?_eq_some_iff.mpr ⟨hspan, hoffset⟩
  obtain ⟨index, hindex, -⟩ := Option.bind_eq_some_iff.mp hfound
  exact ⟨index, hindex⟩

end Span

/--
A list of spans passes the check exactly if it is a partition of the document.  The lookup
then finds the one span that holds an offset of the document, and nothing behind its end.
-/
theorem partition_lookup (spans : List Span) (length : Nat) :
    (partitionFault? spans length = none ↔
      spans = [] ∧ length = 0 ∨ Span.IsPartition length spans) ∧
    (partitionFault? spans length = none → ∀ offset,
      (offset < length → ∃ index, Span.find? spans offset = some index ∧
        Span.findAt? spans offset = spans[index]? ∧ Span.HoldsAt spans offset index ∧
          ∀ other, Span.HoldsAt spans offset other → other = index) ∧
      (length ≤ offset → Span.find? spans offset = none ∧ Span.findAt? spans offset = none ∧
        ∀ other, ¬Span.HoldsAt spans offset other)) := by
  refine ⟨Span.partitionFault?_eq_none_iff, ?_⟩
  intro hspans offset
  have htiles := Span.tiles_of_partitionFault? hspans
  constructor
  · intro hoffset
    obtain ⟨index, hindex⟩ := htiles.exists_find? (Nat.zero_le offset) hoffset
    have hholds := Span.holdsAt_of_find? hindex
    refine ⟨index, hindex, by simp [Span.findAt?, hindex], hholds, ?_⟩
    exact fun other hother => htiles.holdsAt_unique hother hholds
  · intro hoffset
    have hnone : ∀ other, ¬Span.HoldsAt spans offset other := by
      rintro other ⟨span, hspan, hcontains⟩
      have hbounds := htiles.bounds (List.mem_of_getElem? hspan)
      rw [Span.contains_iff] at hcontains
      omega
    have hfind : Span.find? spans offset = none :=
      Option.eq_none_iff_forall_ne_some.mpr fun index hindex =>
        hnone index (Span.holdsAt_of_find? hindex)
    exact ⟨hfind, by simp [Span.findAt?, hfind], hnone⟩

/-- An offset at the boundary of two spans lies in the second one. -/
theorem partition_lookup_boundary :
    let spans := segment "ab$x$"
    partitionFault? spans 5 = none ∧ 2 < 5 ∧ Span.find? spans 2 = some 1 ∧
      (∀ other, Span.HoldsAt spans 2 other → other = 1) ∧ Span.findAt? spans 5 = none := by
  have hspans : partitionFault? (segment "ab$x$") 5 = none := by decide +kernel
  obtain ⟨hinside, -⟩ := (partition_lookup (segment "ab$x$") 5).2 hspans 2
  obtain ⟨-, hbehind⟩ := (partition_lookup (segment "ab$x$") 5).2 hspans 5
  obtain ⟨index, hindex, -, -, hunique⟩ := hinside (by decide)
  have hfirst : Span.find? (segment "ab$x$") 2 = some 1 := by decide +kernel
  obtain rfl : 1 = index := Option.some.inj (hfirst.symm.trans hindex)
  exact ⟨hspans, by decide, hfirst, hunique, (hbehind (Nat.le_refl 5)).2.1⟩

/-- Two plain spans in a row are not merged, so they are no partition. -/
example : ¬Span.IsPartition 2 [⟨0, 1, .plain, []⟩, ⟨1, 2, .plain, []⟩] := by
  intro h
  have hmerged := h.merged
  simp [Span.IsMerged] at hmerged

end LatexIntegrity
