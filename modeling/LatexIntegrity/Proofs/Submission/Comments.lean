import LatexIntegrity.Submission.Completeness
import LatexIntegrity.Proofs.Balance.Delimiters
import LatexIntegrity.Proofs.Include.Commands
import LatexIntegrity.Proofs.Text.Occurrences

/-!
# What is reported in comments

Nothing is reported in a comment that is a span of its own.  A line that begins with a
percent sign inside an environment is no such span: there delimiters, input commands and
markers are reported as on any other line.
-/

namespace LatexIntegrity

namespace Submission

/-! ## Blanked comments -/

theorem length_visibleBody (region : Region) :
    (visibleBody region).length = region.body.length := by
  unfold visibleBody
  split <;> simp

theorem getElem?_blankComments {text : Text} {span : Span} (hspan : span ∈ segment text)
    {offset : Nat} (hoffset : span.contains offset = true) :
    (blankComments text)[offset]? =
      if span.kind == .comment then some (' ' : UInt8) else text[offset]? := by
  obtain ⟨region, hkind, -, hlt, hitems⟩ :=
    Region.exists_getElem?_flatMap hspan (by rwa [Nat.zero_add])
  have hvisible := hitems visibleBody length_visibleBody
  have hbody := hitems (·.body) fun _ => rfl
  rw [flatMap_body_regions] at hbody
  rw [blankComments, hvisible, hbody, ← hkind, visibleBody]
  split
  · rw [List.getElem?_replicate, if_pos hlt]
  · rfl

/-! ## Markers -/

def IsMarkerAt (text marker : Text) (offset : Nat) : Prop :=
  Ascii.lower marker <+: (Ascii.lower text).drop offset ∧
    standsAlone (Ascii.lower text) offset marker.length = true

theorem mem_todoMarkers {marker : Text} (h : marker ∈ todoMarkers) :
    marker ≠ [] ∧ ∀ b ∈ Ascii.lower marker, Ascii.isAlphanumeric b = true := by
  have hall : ∀ marker ∈ todoMarkers,
      marker ≠ [] ∧ (Ascii.lower marker).all Ascii.isAlphanumeric = true := by decide +kernel
  simpa using hall marker h

theorem mem_markerOffsets_iff {text marker : Text} (hmarker : marker ∈ todoMarkers)
    {offset : Nat} : offset ∈ markerOffsets text marker ↔ IsMarkerAt text marker offset := by
  obtain ⟨hne, hletters⟩ := mem_todoMarkers hmarker
  simp only [markerOffsets, List.mem_filter, IsMarkerAt]
  apply and_congr_left
  intro halone
  constructor
  · intro hoffset
    obtain ⟨distance, rfl, hstarts⟩ := Text.prefix_of_mem_occurrencesFrom hoffset
    rwa [Nat.zero_add]
  · intro hstarts
    have hfound := Text.mem_occurrencesFrom_or (by simpa [Ascii.lower] using hne) 0 _ offset hstarts
    simp only [Nat.zero_add] at hfound
    rcases hfound with hfound | ⟨other, hother, hbefore, hbehind⟩
    · exact hfound
    · obtain ⟨distance, rfl, rest, hrest⟩ := Text.prefix_of_mem_occurrencesFrom hother
      rw [Nat.zero_add] at hbefore hbehind
      have hletter : ∃ b, (Ascii.lower text)[offset - 1]? = some b ∧
          Ascii.isAlphanumeric b = true := by
        have hlt : offset - 1 - distance < (Ascii.lower marker).length := by omega
        refine ⟨(Ascii.lower marker)[offset - 1 - distance], ?_,
          hletters _ (List.getElem_mem hlt)⟩
        have hget := congrArg (·[offset - 1 - distance]?) hrest
        simp only [List.getElem?_append_left hlt, List.getElem?_drop] at hget
        rw [show distance + (offset - 1 - distance) = offset - 1 by omega] at hget
        rw [← hget, List.getElem?_eq_getElem hlt]
      obtain ⟨b, hb, halphanumeric⟩ := hletter
      have hpos : offset ≠ 0 := by omega
      simp [standsAlone, hb, halphanumeric, hpos] at halone

theorem mem_markerIssues_iff {text : Text} {offset : Nat} :
    (∃ issue ∈ markerIssues text, issue.offset = some offset) ↔
      ∃ marker ∈ todoMarkers, IsMarkerAt (blankComments text) marker offset := by
  simp only [markerIssues, markerHits, List.mem_map, List.mem_mergeSort, List.mem_flatMap]
  constructor
  · rintro ⟨issue, ⟨hit, ⟨marker, hmarker, place, hplace, rfl⟩, rfl⟩, hoffset⟩
    obtain rfl := Option.some.inj hoffset
    exact ⟨marker, hmarker, (mem_markerOffsets_iff hmarker).mp hplace⟩
  · rintro ⟨marker, hmarker, hplace⟩
    exact ⟨_, ⟨_, ⟨marker, hmarker, offset, (mem_markerOffsets_iff hmarker).mpr hplace, rfl⟩, rfl⟩,
      rfl⟩

theorem not_isMarkerAt_of_space {text marker : Text} (hmarker : marker ∈ todoMarkers)
    {offset : Nat} (h : text[offset]? = some (' ' : UInt8)) : ¬IsMarkerAt text marker offset := by
  rintro ⟨⟨rest, hrest⟩, -⟩
  obtain ⟨hne, hletters⟩ := mem_todoMarkers hmarker
  have hlower : Ascii.lower marker ≠ [] := by simpa [Ascii.lower] using hne
  obtain ⟨b, letters, hcons⟩ := List.exists_cons_of_ne_nil hlower
  have hhead := congrArg List.head? hrest
  rw [hcons, List.cons_append, List.head?_cons, List.head?_drop, Ascii.lower, List.getElem?_map,
    h] at hhead
  have hb := hletters b (by simp [hcons])
  rw [Option.some.inj hhead] at hb
  exact absurd hb (by decide)

end Submission

def IsReportedAt (text : Text) (offset : Nat) : Prop :=
  (∃ delimiter ∈ Balance.delimiters text (segment text), delimiter.position = offset) ∨
    (∃ command ∈ inputCommands text, command.start = offset) ∨
      ∃ issue ∈ Submission.markerIssues text, issue.offset = some offset

/--
In a comment that is a span of its own nothing is reported.  In an environment no line is a
comment: delimiters, input commands and markers are reported wherever they are read, but for
commands inside the argument of another one.
-/
theorem reports_of_span {text : Text} {span : Span} (hspan : span ∈ segment text)
    {offset : Nat} (hoffset : span.contains offset = true) :
    (span.kind = .comment → ¬IsReportedAt text offset) ∧
      (span.kind = .environment →
        ((∃ delimiter ∈ Balance.delimiters text (segment text), delimiter.position = offset) ↔
          (delimiterAt? text offset).isSome = true) ∧
        ((∃ command ∈ inputCommands text, command.start = offset) →
          (InputCommand.at? text offset).isSome = true) ∧
        (∀ command, InputCommand.at? text offset = some command →
          command ∈ inputCommands text ∨
            ∃ other ∈ inputCommands text, other.start < offset ∧ offset < other.stop) ∧
        ((∃ issue ∈ Submission.markerIssues text, issue.offset = some offset) ↔
          ∃ marker ∈ Submission.todoMarkers,
            Submission.IsMarkerAt (Submission.blankComments text) marker offset)) := by
  constructor
  · rintro hkind (⟨delimiter, hdelimiter, rfl⟩ | ⟨command, hcommand, rfl⟩ | hissue)
    · have hcounted := (Balance.mem_delimiters_segment.mp hdelimiter).2
      simp [Balance.isCountedAt_eq hspan hoffset, Balance.isCounted, hkind] at hcounted
    · obtain ⟨-, other, hother, hcounted, hcontains⟩ := InputCommand.of_mem_inputCommands hcommand
      obtain rfl := (tiles_segment text).eq_of_contains hother hspan hcontains hoffset
      simp [InputCommand.isCounted, hkind] at hcounted
    · obtain ⟨marker, hmarker, hplace⟩ := Submission.mem_markerIssues_iff.mp hissue
      refine Submission.not_isMarkerAt_of_space hmarker ?_ hplace
      simp [Submission.getElem?_blankComments hspan hoffset, hkind]
  · -- An environment hides nothing of what is reported.
    intro hkind
    refine ⟨?_, ?_, ?_, Submission.mem_markerIssues_iff⟩
    · constructor
      · rintro ⟨delimiter, hdelimiter, rfl⟩
        simp [(Balance.mem_delimiters_segment.mp hdelimiter).1]
      · intro hread
        obtain ⟨delimiter, hread⟩ := Option.isSome_iff_exists.mp hread
        obtain ⟨rfl, -⟩ := delimiterAt?_eq_some_iff.mp hread
        refine ⟨delimiter, Balance.mem_delimiters_segment.mpr ⟨hread, ?_⟩, rfl⟩
        simp [Balance.isCountedAt_eq hspan hoffset, Balance.isCounted, hkind]
    · rintro ⟨command, hcommand, rfl⟩
      simp [(InputCommand.of_mem_inputCommands hcommand).1]
    · intro command hread
      apply InputCommand.mem_inputCommands_or hspan _ hoffset hread
      simp [InputCommand.isCounted, hkind]

/-- A percent sign in a figure does not hide the delimiter behind it. -/
theorem reports_of_span_figure :
    let text : Text := "\\begin\x7bfigure\x7d\n% \\begin\x7bcenter\x7d\n\\end\x7bfigure\x7d"
    let span : Span := ⟨0, 44, .environment, "figure"⟩
    span ∈ segment text ∧ span.contains 17 = true ∧
      ∃ delimiter ∈ Balance.delimiters text (segment text), delimiter.position = 17 := by
  intro text span
  have hspan : span ∈ segment text := by decide +kernel
  have hoffset : span.contains 17 = true := by decide
  exact ⟨hspan, hoffset,
    ((reports_of_span hspan hoffset).2 rfl).1.mpr (by decide +kernel)⟩

end LatexIntegrity
