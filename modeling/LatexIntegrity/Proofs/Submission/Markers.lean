import LatexIntegrity.Proofs.Balance.Tally
import LatexIntegrity.Proofs.Submission.BlankedConstructs

/-!
# The markers that are reported

Each marker is searched for by itself, and the results are sorted by their offsets.  At one
offset at most one marker stands, since none of them begins with another one.
-/

namespace LatexIntegrity

theorem Ascii.isAlphanumeric_toLower (b : UInt8) :
    isAlphanumeric (toLower b) = isAlphanumeric b := by
  revert b
  apply forall_byte
  decide +kernel

namespace Submission

/-- The word stands at the offset in either case, with no letter or digit beside it. -/
structure IsWholeWordAt (text word : Text) (offset : Nat) : Prop where
  spelled : Ascii.lower (text.slice offset (offset + word.length)) = Ascii.lower word
  before : ∀ b, 0 < offset → text[offset - 1]? = some b → Ascii.isAlphanumeric b = false
  behind : ∀ b, text[offset + word.length]? = some b → Ascii.isAlphanumeric b = false

variable {text marker : Text} {offset : Nat}

theorem prefix_lower_drop_iff_slice {word : Text} :
    Ascii.lower word <+: (Ascii.lower text).drop offset ↔
      Ascii.lower (text.slice offset (offset + word.length)) = Ascii.lower word := by
  rw [List.prefix_iff_eq_take, eq_comm, Text.slice, Nat.add_sub_cancel_left]
  simp [Ascii.lower, List.map_take, List.map_drop]

theorem getD_map_isAlphanumeric_lower (place : Nat) :
    (((Ascii.lower text)[place]?).map Ascii.isAlphanumeric).getD false = false ↔
      ∀ b, text[place]? = some b → Ascii.isAlphanumeric b = false := by
  rw [Ascii.lower, List.getElem?_map]
  cases text[place]? <;> simp [Ascii.isAlphanumeric_toLower]

theorem isMarkerAt_iff : IsMarkerAt text marker offset ↔ IsWholeWordAt text marker offset := by
  have hbeside : standsAlone (Ascii.lower text) offset marker.length = true ↔
      (∀ b, 0 < offset → text[offset - 1]? = some b → Ascii.isAlphanumeric b = false) ∧
        ∀ b, text[offset + marker.length]? = some b → Ascii.isAlphanumeric b = false := by
    rw [← getD_map_isAlphanumeric_lower (offset + marker.length)]
    by_cases hoffset : offset = 0
    · simp [standsAlone, hoffset]
    · have hbefore := @getD_map_isAlphanumeric_lower text (offset - 1)
      simp [standsAlone, hoffset, Nat.pos_of_ne_zero hoffset, ← hbefore]
  rw [IsMarkerAt, prefix_lower_drop_iff_slice, hbeside]
  constructor
  · rintro ⟨hspelled, hbefore, hbehind⟩
    exact ⟨hspelled, hbefore, hbehind⟩
  · rintro ⟨hspelled, hbefore, hbehind⟩
    exact ⟨hspelled, hbefore, hbehind⟩

/-! ## Order -/

theorem pairwise_todoMarkers : todoMarkers.Pairwise fun first second =>
    ¬Ascii.lower first <+: Ascii.lower second ∧ ¬Ascii.lower second <+: Ascii.lower first := by
  decide

theorem offset_ne_of_mem_markerOffsets {first second : Text} (hfirst : first ∈ todoMarkers)
    (hsecond : second ∈ todoMarkers) {place place' : Nat}
    (hne : ¬Ascii.lower first <+: Ascii.lower second ∧ ¬Ascii.lower second <+: Ascii.lower first)
    (hplace : place ∈ markerOffsets text first) (hplace' : place' ∈ markerOffsets text second) :
    place ≠ place' := by
  rintro rfl
  have hstands := ((mem_markerOffsets_iff hfirst).mp hplace).1
  have hstands' := ((mem_markerOffsets_iff hsecond).mp hplace').1
  rcases List.prefix_or_prefix_of_prefix hstands hstands' with h | h
  · exact hne.1 h
  · exact hne.2 h

theorem mem_markerHits_iff :
    (offset, marker) ∈ markerHits text ↔
      marker ∈ todoMarkers ∧ IsWholeWordAt text marker offset := by
  simp only [markerHits, List.mem_mergeSort, List.mem_flatMap, List.mem_map, Prod.mk.injEq]
  constructor
  · rintro ⟨other, hother, place, hplace, rfl, rfl⟩
    exact ⟨hother, isMarkerAt_iff.mp ((mem_markerOffsets_iff hother).mp hplace)⟩
  · rintro ⟨hmarker, hword⟩
    exact ⟨marker, hmarker, offset,
      (mem_markerOffsets_iff hmarker).mpr (isMarkerAt_iff.mpr hword), rfl, rfl⟩

theorem pairwise_offset_ne (text : Text) :
    (todoMarkers.flatMap fun marker => (markerOffsets text marker).map (·, marker)).Pairwise
      fun first second => first.1 ≠ second.1 := by
  refine List.pairwise_flatMap.mpr ⟨fun marker _ => ?_, ?_⟩
  · have hrising := (Text.pairwise_occurrencesFrom (Ascii.lower marker) 0 (Ascii.lower text)).2
    exact List.pairwise_map.mpr ((hrising.filter _).imp Nat.ne_of_lt)
  · refine pairwise_todoMarkers.imp_of_mem fun hfirst hsecond hne hit hhit hit' hhit' => ?_
    obtain ⟨place, hplace, rfl⟩ := List.mem_map.mp hhit
    obtain ⟨place', hplace', rfl⟩ := List.mem_map.mp hhit'
    exact offset_ne_of_mem_markerOffsets hfirst hsecond hne hplace hplace'

theorem hit_le_iff {first second : Nat × Text} :
    (first.1 < second.1 || (first.1 == second.1 && !Text.isBefore second.2 first.2)) = true ↔
      first.1 < second.1 ∨ first.1 = second.1 ∧ first.2 ≤ second.2 := by
  rw [Bool.or_eq_true, Bool.and_eq_true, decide_eq_true_eq, beq_iff_eq, Bool.not_eq_true',
    Bool.eq_false_iff, ne_eq, Text.isBefore_iff, List.not_lt]

theorem pairwise_le_markerHits (text : Text) :
    (markerHits text).Pairwise fun first second => first.1 ≤ second.1 := by
  refine (List.pairwise_mergeSort ?trans ?total _).imp ?le
  case trans =>
    intro first second third
    simp only [hit_le_iff]
    rintro (h | ⟨h, hle⟩) (h' | ⟨h', hle'⟩)
    · omega
    · omega
    · omega
    · exact .inr ⟨h.trans h', List.le_trans hle hle'⟩
  case total =>
    intro first second
    rw [Bool.or_eq_true, hit_le_iff, hit_le_iff]
    rcases Nat.lt_trichotomy first.1 second.1 with h | h | h
    · exact .inl (.inl h)
    · exact (List.le_total first.2 second.2).imp (fun hle => .inr ⟨h, hle⟩)
        fun hle => .inr ⟨h.symm, hle⟩
    · exact .inr (.inl h)
  case le =>
    intro first second
    simp only [hit_le_iff]
    omega

theorem pairwise_markerHits (text : Text) :
    (markerHits text).Pairwise fun first second => first.1 < second.1 := by
  have hapart : (markerHits text).Pairwise fun first second => first.1 ≠ second.1 :=
    ((List.mergeSort_perm _ _).pairwise_iff fun h => Ne.symm h).mpr (pairwise_offset_ne text)
  exact (pairwise_le_markerHits text).imp₂ (fun _ _ hle hne => Nat.lt_of_le_of_ne hle hne) hapart

/-! ## Markers and comments -/

theorem isVisibleAt_of_isWholeWordAt (hmarker : marker ∈ todoMarkers)
    (h : IsWholeWordAt (blankComments text) marker offset) {place : Nat} (hfrom : offset ≤ place)
    (hto : place < offset + marker.length) : IsVisibleAt text place := by
  obtain ⟨distance, rfl⟩ := Nat.exists_eq_add_of_le hfrom
  have hlt : distance < marker.length := by omega
  have hfold : ((blankComments text)[offset + distance]?).map Ascii.toLower =
      some (Ascii.toLower marker[distance]) := by
    have hspelled := congrArg (·[distance]?) h.spelled
    simpa [Ascii.lower, Text.slice, hlt] using hspelled
  obtain ⟨b, hb, hlower⟩ := Option.map_eq_some_iff.mp hfold
  refine (visible_of_getElem?_blankComments hb ?_).1
  rintro rfl
  have hletter := (mem_todoMarkers hmarker).2 _ (List.mem_map_of_mem (List.getElem_mem hlt))
  rw [← hlower] at hletter
  exact absurd hletter (by decide)

/--
The markers that are reported stand at rising offsets.  They are all the markers that stand in
the text with blanked comments as whole words, in either case, and no byte of them lies in a
comment.  Each one is a warning that names the marker.
-/
theorem markerIssues_exact (text : Text) :
    ∃ hits : List (Nat × Text),
      (markerIssues text).map (fun issue => (issue.offset, issue.key)) =
          hits.map (fun hit => (some hit.1, hit.2)) ∧
        hits.Pairwise (fun first second => first.1 < second.1) ∧
        (∀ offset marker, (offset, marker) ∈ hits ↔
          marker ∈ todoMarkers ∧ IsWholeWordAt (blankComments text) marker offset) ∧
        (∀ hit ∈ hits, ∀ place, hit.1 ≤ place → place < hit.1 + hit.2.length →
          IsVisibleAt text place) ∧
        ∀ issue ∈ markerIssues text, issue.kind = .todoMarker ∧ issue.severity = .warning ∧
          issue.key ++ Text.ofString " marker: " <+: issue.message := by
  refine ⟨markerHits (blankComments text), ?_, pairwise_markerHits _, fun _ _ => mem_markerHits_iff,
    ?_, ?_⟩
  · rw [markerIssues, List.map_map]
    rfl
  · intro hit hhit place hfrom hto
    obtain ⟨hmarker, hword⟩ := mem_markerHits_iff.mp hhit
    exact isVisibleAt_of_isWholeWordAt hmarker hword hfrom hto
  · intro issue hissue
    obtain ⟨hit, -, rfl⟩ := List.mem_map.mp hissue
    exact ⟨rfl, rfl, List.prefix_append _ _⟩

/-- The first `XXX` has a letter behind it, the second one a letter before it. -/
example : (markerHits "XXXX Todo tbd2").map (·.1) = [5] := by decide +kernel

end Submission

end LatexIntegrity
