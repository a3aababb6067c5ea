import LatexIntegrity.Proofs.Region.Ends
import LatexIntegrity.Proofs.Region.Shape

/-!
# Constructs at the offsets of a text

What begins at an offset is a span of the text, unless another one goes on there.  Mathematics
begins wherever an opener stands in front of a closer, near or far.
-/

namespace LatexIntegrity

def constructAt? (text : Text) (offset : Nat) : Option (RegionKind × Construct) :=
  construct? (.after (text.take offset)) (text.drop offset)

variable {text : Text} {offset : Nat} {kind : RegionKind} {construct : Construct}

theorem constructAt?_eq_some_iff :
    constructAt? text offset = some (kind, construct) ↔
      ∃ recognize, (kind, recognize) ∈ Recognizer.table ∧
        recognize.foundAt? text offset = some construct :=
  construct?_eq_some_iff

theorem constructAt?_start {span : Span} (hspan : span ∈ segment text)
    (hshielded : span.isShielded = true) :
    constructAt? text span.start = some (span.kind, ⟨span.stop - span.start, span.name⟩) := by
  obtain ⟨before, recognize, after, htable, -, hfound⟩ :=
    (isFirstMatch_of_mem_spans [] text span hspan).found hshielded
  exact constructAt?_eq_some_iff.mpr ⟨recognize, by rw [htable]; simp, hfound⟩

theorem exists_span_of_constructAt? (h : constructAt? text offset = some (kind, construct)) :
    ∃ span ∈ segment text, span.contains offset = true ∧ span.isShielded = true ∧
      (span.start = offset → span.kind = kind ∧ span.stop = offset + construct.length) := by
  have hbounds := (construct?_spec h).2
  rw [List.length_drop] at hbounds
  obtain ⟨span, hspan, hcontains⟩ :=
    (tiles_segment text).exists_contains (Nat.zero_le offset) (show offset < text.length by omega)
  have hstart := Span.contains_iff.mp hcontains
  have hshielded : span.isShielded = true := by
    by_contra hplain
    have hnone := (isFirstMatch_of_mem_spans [] text span hspan).declined
      (Bool.not_eq_true _ ▸ hplain) offset hstart.1 hstart.2
    cases h.symm.trans (construct?_eq_none_iff.mpr hnone)
  refine ⟨span, hspan, hcontains, hshielded, ?_⟩
  rintro rfl
  have hsame := (constructAt?_start hspan hshielded).symm.trans h
  simp only [Option.some.injEq, Prod.mk.injEq] at hsame
  obtain ⟨hkind, rfl⟩ := hsame
  exact ⟨hkind, by simp only; omega⟩

theorem exists_last_of_constructAt? (h : constructAt? text offset = some (kind, construct))
    (hkind : kind ≠ .comment) :
    ∃ last, text[offset + construct.length - 1]? = some last ∧ last ≠ ' ' ∧ last ≠ '\\' := by
  have hbounds := (construct?_spec h).2
  obtain ⟨recognize, hentry, hfound⟩ := constructAt?_eq_some_iff.mp h
  obtain ⟨inner, last, hinner, hlast⟩ := Recognizer.take_eq_of_mem_table hentry hkind hfound
  have hlength := congrArg List.length hinner
  rw [List.length_take_of_le hbounds.2, List.length_append, List.length_singleton] at hlength
  refine ⟨last, ?_, ?_, ?_⟩
  · have hget := congrArg (·[inner.length]?) hinner
    simp only [List.getElem?_take, List.getElem?_drop] at hget
    rw [if_pos (by omega)] at hget
    rw [show offset + construct.length - 1 = offset + inner.length by omega, hget]
    simp
  · rintro rfl
    exact absurd hlast (by decide)
  · rintro rfl
    exact absurd hlast (by decide)

/-! ## Places of a search -/

theorem exists_distance? {p : LeftContext → Text → Bool} {start place : Nat}
    (hstart : start ≤ place) (hplace : place < text.length)
    (hp : p (.after (text.take place)) (text.drop place) = true) :
    ∃ distance, distance? p (.after (text.take start)) (text.drop start) = some distance := by
  obtain ⟨earlier, rfl⟩ := Nat.exists_eq_add_of_le hstart
  induction earlier generalizing start with
  | zero =>
      rw [Nat.add_zero] at hplace hp
      rw [List.drop_eq_getElem_cons hplace] at hp ⊢
      exact ⟨0, distance?_cons_of_pos hp⟩
  | succ earlier ih =>
      obtain ⟨distance, hdistance⟩ := @ih (start + 1) (by omega) (by omega)
        (by rwa [Nat.add_right_comm])
      have hlt : start < text.length := by omega
      have hpush : (LeftContext.after (text.take start)).push text[start] =
          .after (text.take (start + 1)) := by
        rw [← LeftContext.after_take_add, List.drop_eq_getElem_cons hlt]
        rfl
      rw [List.drop_eq_getElem_cons hlt, distance?, hpush, hdistance]
      split
      · exact ⟨0, rfl⟩
      · exact ⟨distance + 1, rfl⟩

theorem Recognizer.exists_fenced {opener closer : Text} {place : Nat} (hcloser : closer ≠ [])
    (hopener : StandsAt text opener offset) (hle : offset + opener.length ≤ place)
    (hplace : StandsAt text closer place) :
    ∃ construct, (fenced opener closer).foundAt? text offset = some construct := by
  have hlt : place < text.length := by
    have hpos := List.length_pos_iff.mpr hcloser
    have hfit := hplace.2.length_le
    rw [List.length_drop] at hfit
    omega
  obtain ⟨distance, hdistance⟩ := exists_distance?
    (p := fun context rest => !context.escaped && closer.isPrefixOf rest) hle hlt
    (standsAt_iff.mpr hplace)
  refine ⟨_, fenced_eq_some_iff.mpr ⟨hopener.1, hopener.2, distance, ?_, rfl⟩⟩
  rw [List.prefix_iff_eq_take.mp hopener.2, LeftContext.after_take_add,
    ← List.prefix_iff_eq_take.mp hopener.2, List.drop_drop]
  exact hdistance

theorem Recognizer.exists_inlineMath {place : Nat} (hopener : IsLoneDollarAt text offset)
    (hle : offset < place) (hplace : IsLoneDollarAt text place) :
    ∃ construct, inlineMath.foundAt? text offset = some construct := by
  have hlength : ∀ {place}, IsLoneDollarAt text place → place < text.length := by
    intro place h
    have hfit := h.1.2.length_le
    rw [List.length_drop, show (Text.ofString "$").length = 1 by decide] at hfit
    omega
  have hlt := hlength hopener
  obtain ⟨distance, hdistance⟩ :=
    exists_distance? hle (hlength hplace) (isLoneDollar_iff.mpr hplace)
  have hpush : (LeftContext.after (text.take offset)).push text[offset] =
      .after (text.take (offset + 1)) := by
    rw [← LeftContext.after_take_add, List.drop_eq_getElem_cons hlt]
    rfl
  rw [← isLoneDollar_iff, List.drop_eq_getElem_cons hlt] at hopener
  refine ⟨⟨distance + 2, []⟩, ?_⟩
  rw [foundAt?, List.drop_eq_getElem_cons hlt]
  refine inlineMath_eq_some_iff.mpr ⟨_, _, rfl, hopener, distance, ?_, rfl⟩
  rwa [hpush]

end LatexIntegrity
