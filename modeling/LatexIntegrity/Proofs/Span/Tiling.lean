import Mathlib.Data.List.Chain
import Mathlib.Data.List.Intervals
import LatexIntegrity.Span.Partition
import LatexIntegrity.Proofs.Region.FirstMatch

/-!
# Spans that tile a text

A list of spans without a fault leaves no gap and no overlap.  Every offset therefore
lies in exactly one span, and the binary search finds it.
-/

namespace LatexIntegrity

theorem bisect_append {α : Type} {before : α → Bool} {first second : List α}
    (hfirst : ∀ a ∈ first, before a = true) (hsecond : ∀ a ∈ second, before a = false) :
    bisect before (first ++ second) = first.length := by
  induction hn : (first ++ second).length using Nat.strongRecOn generalizing first second with
  | ind n ih =>
      subst hn
      have hlength : (first ++ second).length = first.length + second.length :=
        List.length_append
      rw [bisect]
      generalize hhalf : (first ++ second).length / 2 = half
      -- The middle lies in one of the two parts, and the search goes on in the rest of that part.
      by_cases hside : half < first.length
      · have hdrop : (first ++ second).drop half =
            first[half] :: (first.drop (half + 1) ++ second) := by
          rw [List.drop_append_of_le_length (Nat.le_of_lt hside), List.drop_eq_getElem_cons hside,
            List.cons_append]
        have hrest := ih (first.drop (half + 1) ++ second).length (by simp; omega)
          (fun a ha => hfirst a (List.mem_of_mem_drop ha)) hsecond rfl
        split
        · next hnil => simp [hdrop] at hnil
        · next middle rest hcons =>
            obtain ⟨rfl, rfl⟩ := List.cons.inj (hdrop.symm.trans hcons)
            rw [if_pos (hfirst _ (List.getElem_mem hside)), hrest, List.length_drop]
            omega
      · have htake : (first ++ second).take half =
            first ++ second.take (half - first.length) := by
          rw [List.take_append, List.take_of_length_le (by omega)]
        split
        · next hnil =>
            have hshort := congrArg List.length hnil
            simp only [List.length_drop, List.length_nil] at hshort
            omega
        · next middle rest hcons =>
            have hdrop : (first ++ second).drop half = second.drop (half - first.length) := by
              rw [List.drop_append, List.drop_eq_nil_of_le (by omega), List.nil_append]
            have hmiddle : middle ∈ second := by
              apply List.mem_of_mem_drop (i := half - first.length)
              rw [← hdrop, hcons]
              exact List.mem_cons_self
            have hpos : 0 < second.length := List.length_pos_of_mem hmiddle
            rw [hsecond middle hmiddle, if_neg Bool.false_ne_true, htake]
            exact ih _ (by simp; omega) hfirst
              (fun a ha => hsecond a (List.mem_of_mem_take ha)) rfl

namespace Span

def Tiles (stop : Nat) : Nat → List Span → Prop
  | start, [] => start = stop
  | start, span :: rest => span.start = start ∧ start < span.stop ∧ Tiles stop span.stop rest

def IsMerged (first second : Span) : Prop := first.kind = .plain → second.kind ≠ .plain

theorem partitionFaultFrom?_cons_eq_none_iff {length index start : Nat} {plainBefore : Bool}
    {span : Span} {rest : List Span} :
    partitionFaultFrom? length index start plainBefore (span :: rest) = none ↔
      span.start = start ∧ start < span.stop ∧ (plainBefore = true → span.kind ≠ .plain) ∧
        partitionFaultFrom? length (index + 1) span.stop (span.kind == .plain) rest = none := by
  by_cases hstart : span.start = start
  · subst hstart
    by_cases hpos : span.stop ≤ span.start
    · simp [partitionFaultFrom?, hpos]
    · cases plainBefore <;> by_cases hkind : span.kind = .plain <;>
        simp [partitionFaultFrom?, hpos, hkind] <;> omega
  · simp [partitionFaultFrom?, hstart]

theorem partitionFaultFrom?_eq_none_iff {length index start : Nat} {plainBefore : Bool}
    {spans : List Span} :
    partitionFaultFrom? length index start plainBefore spans = none ↔
      Tiles length start spans ∧
        (plainBefore = true → ∀ span ∈ spans.head?, span.kind ≠ .plain) ∧
          spans.IsChain IsMerged := by
  induction spans generalizing index start plainBefore with
  | nil => simp [partitionFaultFrom?, Tiles]
  | cons span rest ih =>
      simp only [partitionFaultFrom?_cons_eq_none_iff, ih, Tiles, List.isChain_cons, IsMerged,
        List.head?_cons, Option.mem_def, Option.some.injEq, forall_eq', beq_iff_eq]
      tauto

theorem tiles_of_partitionFault? {length : Nat} {spans : List Span}
    (h : partitionFault? spans length = none) : Tiles length 0 spans := by
  cases spans with
  | nil =>
      simp only [partitionFault?, List.isEmpty_nil, if_true] at h
      split at h
      · next hlength => exact hlength.symm
      · cases h
  | cons span rest => exact (partitionFaultFrom?_eq_none_iff.mp h).1

def HoldsAt (spans : List Span) (offset index : Nat) : Prop :=
  ∃ span, spans[index]? = some span ∧ span.contains offset = true

theorem holdsAt_of_find? {spans : List Span} {offset index : Nat}
    (h : find? spans offset = some index) : HoldsAt spans offset index := by
  unfold find? at h
  split at h
  · cases h
  · split at h
    · next span hspan =>
        split at h
        · next hcontains =>
            cases h
            exact ⟨span, hspan, hcontains⟩
        · cases h
    · cases h

theorem mem_of_findAt? {spans : List Span} {offset : Nat} {span : Span}
    (h : findAt? spans offset = some span) : span ∈ spans ∧ span.contains offset = true := by
  rw [findAt?, Option.bind_eq_some_iff] at h
  obtain ⟨index, hindex, hspan⟩ := h
  obtain ⟨other, hother, hcontains⟩ := holdsAt_of_find? hindex
  obtain rfl : span = other := Option.some.inj (hspan.symm.trans hother)
  exact ⟨List.mem_of_getElem? hspan, hcontains⟩

namespace Tiles

variable {start stop offset : Nat} {spans : List Span} {span : Span}

theorem le (h : Tiles stop start spans) : start ≤ stop := by
  induction spans generalizing start with
  | nil => exact Nat.le_of_eq h
  | cons span rest ih =>
      obtain ⟨-, hpos, hrest⟩ := h
      have := ih hrest
      omega

theorem bounds (h : Tiles stop start spans) (hspan : span ∈ spans) :
    start ≤ span.start ∧ span.start < span.stop ∧ span.stop ≤ stop := by
  induction spans generalizing start with
  | nil => cases hspan
  | cons first rest ih =>
      obtain ⟨hstart, hpos, hrest⟩ := h
      rcases List.mem_cons.mp hspan with rfl | hspan
      · have := hrest.le
        omega
      · have := ih hrest hspan
        omega

theorem pairwise (h : Tiles stop start spans) :
    spans.Pairwise fun first second => first.stop ≤ second.start := by
  induction spans generalizing start with
  | nil => exact List.Pairwise.nil
  | cons first rest ih =>
      obtain ⟨-, -, hrest⟩ := h
      exact List.pairwise_cons.mpr ⟨fun span hspan => (hrest.bounds hspan).1, ih hrest⟩

theorem stop_of_getLast? (h : Tiles stop start spans) (hlast : spans.getLast? = some span) :
    span.stop = stop := by
  induction spans generalizing start with
  | nil => cases hlast
  | cons first rest ih =>
      obtain ⟨-, -, hrest⟩ := h
      cases rest with
      | nil =>
          cases hlast
          exact hrest
      | cons second others => exact ih hrest (by simpa using hlast)

theorem exists_contains (h : Tiles stop start spans) (hstart : start ≤ offset)
    (hstop : offset < stop) : ∃ span ∈ spans, span.contains offset = true := by
  induction spans generalizing start with
  | nil =>
      have hempty : start = stop := h
      omega
  | cons first rest ih =>
      obtain ⟨rfl, -, hrest⟩ := h
      by_cases hfirst : offset < first.stop
      · exact ⟨first, List.mem_cons_self, by simp [contains, hstart, hfirst]⟩
      · obtain ⟨span, hspan, hoffset⟩ := ih hrest (by omega)
        exact ⟨span, List.mem_cons_of_mem _ hspan, hoffset⟩

theorem findAt?_eq_some_iff (h : Tiles stop start spans) :
    findAt? spans offset = some span ↔ span ∈ spans ∧ span.contains offset = true := by
  have hfound : ∀ {before after : List Span} {span : Span}, spans = before ++ span :: after →
      span.contains offset = true → findAt? spans offset = some span := by
    rintro before after span rfl hspan
    simp only [contains, Bool.and_eq_true, decide_eq_true_eq] at hspan
    obtain ⟨hbefore, -, hafter⟩ := List.pairwise_append.mp h.pairwise
    have hcount : bisect (fun span => decide (span.start ≤ offset)) (before ++ span :: after) =
        before.length + 1 := by
      have happend : before ++ span :: after = (before ++ [span]) ++ after := by simp
      rw [happend, bisect_append, List.length_append, List.length_singleton]
      · intro other hother
        rcases List.mem_append.mp hother with hother | hother
        · have hle := hafter other hother span List.mem_cons_self
          have hpos := (h.bounds (List.mem_append_left _ hother)).2.1
          simp only [decide_eq_true_eq]
          omega
        · rw [List.mem_singleton.mp hother]
          simpa using hspan.1
      · intro other hother
        have hpairwise := (List.pairwise_append.mp h.pairwise).2.1
        have hle := (List.pairwise_cons.mp hpairwise).1 other hother
        simp only [decide_eq_false_iff_not]
        omega
    simp [findAt?, find?, hcount, contains, hspan]
  constructor
  · exact mem_of_findAt?
  · rintro ⟨hspan, hcontains⟩
    obtain ⟨before, after, hsplit⟩ := List.append_of_mem hspan
    exact hfound hsplit hcontains

theorem eq_of_contains (h : Tiles stop start spans) {other : Span} (hspan : span ∈ spans)
    (hother : other ∈ spans) (hoffset : span.contains offset = true)
    (hoffset' : other.contains offset = true) : span = other := by
  have hfind := h.findAt?_eq_some_iff.mpr ⟨hspan, hoffset⟩
  rw [h.findAt?_eq_some_iff.mpr ⟨hother, hoffset'⟩] at hfind
  exact (Option.some.inj hfind).symm

theorem apart (h : Tiles stop start spans) {other : Span} (hspan : span ∈ spans)
    (hother : other ∈ spans) (hne : span ≠ other) :
    span.stop ≤ other.start ∨ other.stop ≤ span.start := by
  by_contra hcommon
  have hbounds := h.bounds hspan
  have hotherBounds := h.bounds hother
  apply hne
  have hcontains : span.contains (max span.start other.start) = true ∧
      other.contains (max span.start other.start) = true := by
    simp only [contains, Bool.and_eq_true, decide_eq_true_eq]
    omega
  exact h.eq_of_contains hspan hother hcontains.1 hcontains.2

theorem flatMap_Ico (h : Tiles stop start spans) {p : Span → Bool} {q : Nat → Bool}
    (hq : ∀ span ∈ spans, ∀ offset, span.contains offset = true → q offset = p span) :
    (spans.filter p).flatMap (fun span => List.Ico span.start span.stop) =
      (List.Ico start stop).filter q := by
  induction spans generalizing start with
  | nil =>
      have hempty : start = stop := h
      simp [hempty]
  | cons span rest ih =>
      obtain ⟨rfl, hpos, hrest⟩ := h
      have hoffsets : ∀ offset ∈ List.Ico span.start span.stop, q offset = p span := by
        intro offset hoffset
        rw [List.Ico.mem] at hoffset
        apply hq span List.mem_cons_self
        simp [contains, hoffset]
      rw [← List.Ico.append_consecutive (Nat.le_of_lt hpos) hrest.le, List.filter_append,
        ← ih hrest fun other hother => hq other (List.mem_cons_of_mem _ hother)]
      cases hspan : p span with
      | true =>
          have hall : (List.Ico span.start span.stop).filter q =
              List.Ico span.start span.stop := by
            simpa [List.filter_eq_self, hspan] using hoffsets
          simp [hspan, hall]
      | false =>
          have hnone : (List.Ico span.start span.stop).filter q = [] := by
            simpa [List.filter_eq_nil_iff, hspan] using hoffsets
          simp [hspan, hnone]

end Tiles

end Span

theorem Span.read_eq_slice {text : Text} {span : Span} (hstart : span.start ≤ span.stop)
    (hstop : span.stop ≤ text.length) : span.read text = text.slice span.start span.stop := by
  unfold read read? Text.slice length wordDifference
  rw [if_neg (by omega), if_pos hstart]
  rfl

theorem tiles_segment (text : Text) : Span.Tiles text.length 0 (segment text) :=
  Span.tiles_of_partitionFault? (partitionFault?_segment_eq_none text)

end LatexIntegrity
