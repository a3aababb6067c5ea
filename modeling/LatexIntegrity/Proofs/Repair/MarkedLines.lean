import LatexIntegrity.Proofs.Repair.FigureReferences
import LatexIntegrity.Proofs.Repair.Figures
import LatexIntegrity.Proofs.Repair.Rounds
import LatexIntegrity.Proofs.Text.LineEdits

/-!
# Lines that are commented out

What becomes of a missing figure depends on the line that holds it and on the place where
this line begins, and not on the figures before it.  The pass therefore writes one marker in
front of each line that it comments out, and changes nothing else.
-/

namespace LatexIntegrity

namespace Text

variable {text : Text} {offset : Nat}

theorem IsLineStart.isLineStart (h : IsLineStart text offset) (spans : List Span)
    (edits : List Edit) : Draft.isLineStart ⟨text, spans, edits⟩ offset = true := by
  obtain ⟨hfit, hlast⟩ := h
  simp only [Draft.isLineStart, Bool.and_eq_true, Bool.or_eq_true, decide_eq_true_eq, beq_iff_eq]
  refine ⟨hfit, ?_⟩
  cases offset with
  | zero => exact .inl rfl
  | succ offset =>
      obtain ⟨b, hb⟩ : ∃ b, text[offset]? = some b :=
        ⟨text[offset], List.getElem?_eq_getElem hfit⟩
      rw [List.take_add_one, hb] at hlast
      rw [Nat.add_sub_cancel, hb, hlast b (by simp)]
      exact .inr rfl

theorem lineNumber_startOfLine (h : offset ≤ text.length) :
    lineNumber text (startOfLine text offset) = lineNumber text offset := by
  obtain ⟨hle, -, hunbroken⟩ := startOfLine_spec h
  have hnone : (text.slice (startOfLine text offset) offset).countP (· == ('\n' : UInt8)) = 0 :=
    List.countP_eq_zero.mpr fun b hb hfeed => hunbroken (beq_iff_eq.mp hfeed ▸ hb)
  rw [lineNumber, lineNumber, ← text.take_append_slice hle, List.countP_append, hnone,
    Nat.add_zero]

theorem lineHolding_spec (h : offset ≤ text.length) :
    text.drop (startOfLine text offset) =
        lineHolding text offset ++ text.drop (endOfLine text offset) ∧
      IsLineBetween (· == ('\n' : UInt8)) (text.take (startOfLine text offset))
        (lineHolding text offset) (text.drop (endOfLine text offset)) := by
  obtain ⟨hstart, hline, hbefore⟩ := startOfLine_spec h
  obtain ⟨hend, hfit, hbehind, hfeed⟩ := endOfLine_spec h
  refine ⟨(text.slice_append_drop (Nat.le_trans hstart hend)).symm, ?_, ?_, ?_⟩
  · exact fun b hb => beq_iff_eq.mpr (hline.2 b hb)
  · intro b hb
    rw [lineHolding, ← text.slice_append_slice hstart hend, List.mem_append] at hb
    rw [beq_eq_false_iff_ne]
    rintro rfl
    exact hb.elim hbefore hbehind
  · exact fun b hb => beq_iff_eq.mpr (hfeed b hb)

theorem lineHolding_eq (h : offset ≤ text.length) :
    lineHolding text offset =
      (text.drop (startOfLine text offset)).takeWhile (· != ('\n' : UInt8)) := by
  obtain ⟨htext, hline⟩ := lineHolding_spec h
  have hinside : ∀ b ∈ lineHolding text offset, (b != ('\n' : UInt8)) = true := by
    intro b hb
    simpa using hline.inside b hb
  rw [htext, List.takeWhile_append_of_pos hinside]
  cases hbehind : text.drop (endOfLine text offset) with
  | nil => simp
  | cons feed rest =>
      have hfeed := hline.ends feed (by rw [hbehind]; rfl)
      rw [List.takeWhile_cons_of_neg (by simpa using hfeed), List.append_nil]

theorem length_lineHolding (h : offset ≤ text.length) :
    (lineHolding text offset).length = endOfLine text offset - startOfLine text offset := by
  have hfit := (endOfLine_spec h).2.1
  rw [lineHolding, slice, List.length_take_of_le]
  rw [List.length_drop]
  omega

theorem slice_endOfLine (text : Text) (offset : Nat) :
    text.slice offset (endOfLine text offset) =
      (text.drop offset).takeWhile (· != ('\n' : UInt8)) := by
  rw [slice, endOfLine, Nat.add_sub_cancel_left, take_length_takeWhile]

theorem getElem?_lines_lineNumber (h : offset ≤ text.length) :
    (lines text)[lineNumber text offset]? = some (lineHolding text offset) := by
  obtain ⟨htext, hline⟩ := lineHolding_spec h
  have hfound := hline.getElem?_splitOnP
  rwa [← htext, List.take_append_drop, ← lines_eq_splitOnP, ← lineNumber,
    lineNumber_startOfLine h] at hfound

end Text

namespace Repair

/-! ## Markers in front of lines -/

def mark (marker : Text) (start : Nat) : Edit := ⟨start, 0, marker⟩

def withMarks (marker text : Text) (starts : List Nat) : Text :=
  (starts.map (mark marker)).foldr Edit.apply text

section

variable {marker text : Text} {starts : List Nat}

theorem withMarks_eq (marker text : Text) (starts : List Nat) :
    withMarks marker text starts =
      starts.foldr (Text.changeLine (· == ('\n' : UInt8)) (marker ++ ·)) text := by
  induction starts with
  | nil => rfl
  | cons start starts ih =>
      rw [List.foldr_cons, ← ih, Text.changeLine, List.append_assoc, Text.firstLine_append_behind,
        ← List.append_assoc]
      rfl

theorem lines_withMarks (hmarker : marker.IsUnbroken) (hsorted : starts.Pairwise (· < ·))
    (hstarts : ∀ start ∈ starts, Text.IsLineStart text start) :
    Text.lines (withMarks marker text starts) =
      (Text.lines text).mapIdx fun number line =>
        if number ∈ starts.map (Text.lineNumber text) then marker ++ line else line := by
  rw [withMarks_eq, Text.lines_eq_splitOnP, Text.splitOnP_foldr_changeLine ?_ hsorted
    fun start hstart => (hstarts start hstart).beginsLine, ← Text.lines_eq_splitOnP]
  · rfl
  · intro line hline b hb
    rcases List.mem_append.mp hb with hb | hb
    · exact beq_false_of_ne fun heq => hmarker (heq ▸ hb)
    · exact hline b hb

end

/-! ## What becomes of a missing figure -/

namespace FigureReference

def isCommentable (text : Text) (spans : List Span) (figure : FigureReference) : Bool :=
  let start := Text.startOfLine text figure.offset
  let line := Text.lineHolding text figure.offset
  let draft : Draft := ⟨text, spans, []⟩
  !FigurePass.isCommentLine line && !FigurePass.holdsDelimiter line &&
    (draft.isReplaceable start 0 || draft.isInFigure start)

def fix? (text : Text) (spans : List Span) (figure : FigureReference) : Option Fix :=
  let line := Text.lineHolding text figure.offset
  if FigurePass.isCommentLine line then none
  else if figure.isCommentable text spans then some (FigurePass.commented figure.path)
  else some (FigurePass.leftInPlace figure.path
    (if FigurePass.holdsDelimiter line then "line holds an environment delimiter"
    else "line starts in a protected region"))

variable {text : Text} {spans : List Span} {figure : FigureReference}

theorem fix?_of_isCommentable (h : figure.isCommentable text spans = true) :
    figure.fix? text spans = some (FigurePass.commented figure.path) := by
  have hcomment : FigurePass.isCommentLine (Text.lineHolding text figure.offset) = false := by
    simp only [isCommentable, Bool.and_eq_true, Bool.not_eq_true'] at h
    exact h.1.1
  rw [fix?, hcomment, h]
  rfl

theorem applied_of_fix? {fix : Fix} (h : figure.isCommentable text spans = false)
    (hfix : figure.fix? text spans = some fix) : fix.applied = false := by
  rw [fix?, h] at hfix
  split at hfix
  · cases hfix
  · cases hfix
    rfl

end FigureReference

/-- What a pass has done when it has dealt with some missing figures of a text. -/
structure FigurePass.Describes (marker text : Text) (spans : List Span)
    (done : List FigureReference) (pass : FigurePass) : Prop where
  draft : pass.draft = ⟨text, spans, pass.marked.reverse.map (mark marker)⟩
  nodup : pass.marked.Nodup
  marked : ∀ start, start ∈ pass.marked ↔
    ∃ figure ∈ done, figure.isCommentable text spans = true ∧
      Text.startOfLine text figure.offset = start
  fixes : pass.fixes = done.filterMap (FigureReference.fix? text spans)

namespace FigurePass.Describes

variable {marker text : Text} {spans : List Span} {done : List FigureReference}
  {figure : FigureReference} {pass : FigurePass}

theorem insertAtLine?_marks {start : Nat} (hstart : Text.IsLineStart text start)
    (starts : List Nat) :
    Draft.insertAtLine? ⟨text, spans, starts.map (mark marker)⟩ start marker =
      if Draft.isReplaceable ⟨text, spans, []⟩ start 0 || Draft.isInFigure ⟨text, spans, []⟩ start
      then some ⟨text, spans, (starts ++ [start]).map (mark marker)⟩ else none := by
  have hfree : Draft.isTaken ⟨text, spans, starts.map (mark marker)⟩ start 0 = false := by
    rw [Draft.isTaken, List.any_map, List.any_eq_false]
    intro other _
    have hsplits : Edit.conflicts (mark marker other) start 0 =
        (decide (other < start) && decide (start < other + 0)) := rfl
    rw [Function.comp_apply, hsplits, Bool.and_eq_true, decide_eq_true_eq, decide_eq_true_eq]
    omega
  rw [Draft.insertAtLine?, hstart.isLineStart, hfree, List.map_append]
  rfl

theorem isCommentable_congr {other : FigureReference} (hfigure : figure.offset ≤ text.length)
    (hother : other.offset ≤ text.length)
    (h : Text.startOfLine text other.offset = Text.startOfLine text figure.offset) :
    other.isCommentable text spans = figure.isCommentable text spans := by
  simp only [FigureReference.isCommentable, Text.lineHolding_eq hfigure,
    Text.lineHolding_eq hother, h]

theorem concat_of_not_isCommentable (h : pass.Describes marker text spans done)
    (hplace : figure.isCommentable text spans = false) (fixes : List Fix)
    (hfixes : fixes = (figure.fix? text spans).toList) :
    ({ pass with fixes := pass.fixes ++ fixes } : FigurePass).Describes marker text spans
      (done ++ [figure]) := by
  refine ⟨h.draft, h.nodup, fun start => ?_, ?_⟩
  · simp [h.marked, hplace]
  · rw [hfixes, h.fixes, List.filterMap_append]
    cases hfix : figure.fix? text spans <;> simp [hfix]

theorem record (h : pass.Describes marker text spans done)
    (hplace : figure.isCommentable text spans = true)
    (hmarked : Text.startOfLine text figure.offset ∈ pass.marked) :
    (pass.record figure.path).Describes marker text spans (done ++ [figure]) := by
  refine ⟨h.draft, h.nodup, fun start => ?_, ?_⟩
  · rw [h.marked] at hmarked
    simp only [FigurePass.record, h.marked, List.mem_append, List.mem_singleton, or_and_right,
      exists_or, exists_eq_left, hplace, true_and]
    exact ⟨.inl, fun hstart => hstart.elim id fun heq => heq ▸ hmarked⟩
  · simp [FigurePass.record, h.fixes, FigureReference.fix?_of_isCommentable hplace]

theorem recordMarked (h : pass.Describes marker text spans done)
    (hplace : figure.isCommentable text spans = true)
    (hnew : Text.startOfLine text figure.offset ∉ pass.marked) :
    let start := Text.startOfLine text figure.offset
    let draft : Draft := ⟨text, spans, (pass.marked.reverse ++ [start]).map (mark marker)⟩
    (({ pass with draft := draft, marked := start :: pass.marked } : FigurePass).record
      figure.path).Describes marker text spans (done ++ [figure]) := by
  refine ⟨?_, List.nodup_cons.mpr ⟨hnew, h.nodup⟩, fun start => ?_, ?_⟩
  · simp [FigurePass.record]
  · simp only [FigurePass.record, List.mem_cons, h.marked, List.mem_append, List.not_mem_nil,
      or_false, or_and_right, exists_or, exists_eq_left, hplace, true_and]
    rw [or_comm, @eq_comm _ start]
  · simp [FigurePass.record, h.fixes, FigureReference.fix?_of_isCommentable hplace]

theorem commentOut (h : pass.Describes marker text spans done)
    (hdone : ∀ other ∈ done, other.offset ≤ text.length) (hfigure : figure.offset ≤ text.length) :
    (pass.commentOut marker figure).Describes marker text spans (done ++ [figure]) := by
  have hstart := (Text.startOfLine_spec hfigure).2.1
  have htext : pass.draft.text = text := by rw [h.draft]
  simp only [FigurePass.commentOut, htext]
  by_cases hcomment : FigurePass.isCommentLine (Text.lineHolding text figure.offset) = true
  · rw [if_pos hcomment]
    have hsame := h.concat_of_not_isCommentable
      (show figure.isCommentable text spans = false by
        simp [FigureReference.isCommentable, hcomment])
      [] (by simp [FigureReference.fix?, hcomment])
    rwa [List.append_nil] at hsame
  rw [if_neg hcomment]
  -- An earlier figure on the same line was given the marker.
  by_cases hknown : Text.startOfLine text figure.offset ∈ pass.marked
  · obtain ⟨other, hother, hcommented, hsame⟩ := (h.marked _).mp hknown
    rw [isCommentable_congr hfigure (hdone other hother) hsame] at hcommented
    rw [if_pos (List.contains_iff_mem.mpr hknown)]
    exact h.record hcommented hknown
  rw [if_neg (by simpa using hknown)]
  by_cases hdelimiter : FigurePass.holdsDelimiter (Text.lineHolding text figure.offset) = true
  · have hplace : figure.isCommentable text spans = false := by
      simp [FigureReference.isCommentable, hdelimiter]
    rw [if_pos hdelimiter]
    exact h.concat_of_not_isCommentable hplace _
      (by simp [FigureReference.fix?, hcomment, hplace, hdelimiter])
  have hcommentable : figure.isCommentable text spans =
      (Draft.isReplaceable ⟨text, spans, []⟩ (Text.startOfLine text figure.offset) 0 ||
        Draft.isInFigure ⟨text, spans, []⟩ (Text.startOfLine text figure.offset)) := by
    simp [FigureReference.isCommentable, hcomment, hdelimiter]
  rw [if_neg hdelimiter, h.draft, insertAtLine?_marks hstart, ← hcommentable]
  cases hplace : figure.isCommentable text spans with
  | true => exact h.recordMarked hplace hknown
  | false =>
      exact h.concat_of_not_isCommentable hplace _
        (by simp [FigureReference.fix?, hcomment, hplace, hdelimiter])

end FigurePass.Describes

theorem describes_commentOutFigures (marker text : Text) (spans : List Span)
    {missing : List FigureReference} (hmissing : ∀ figure ∈ missing, figure.offset ≤ text.length) :
    (commentOutFigures marker text spans missing).Describes marker text spans missing := by
  induction missing using List.reverseRecOn with
  | nil => exact ⟨rfl, List.nodup_nil, by simp [commentOutFigures], rfl⟩
  | append_singleton missing figure ih =>
      obtain ⟨hmissing, hfigure⟩ := List.forall_mem_append.mp hmissing
      unfold commentOutFigures at ih ⊢
      rw [List.foldl_concat]
      exact (ih hmissing).commentOut hmissing (hfigure figure (List.mem_singleton.mpr rfl))

/-! ## The figures that are not found -/

section

variable (disk : Disk Id) (options : FigureOptions) (directory text : Text)

def missingIn : List FigureReference :=
  (missingFigures disk options directory (figureReferences text (segment text))).run

def commentOutMissing : FigurePass :=
  commentOutFigures options.marker text (segment text) (missingIn disk options directory text)

def commentedFigures : List FigureReference :=
  (missingIn disk options directory text).filter (·.isCommentable text (segment text))

end

variable {disk : Disk Id} {options : FigureOptions} {directory text : Text}

theorem missingFigures_eq_filter (figures : List FigureReference) :
    (missingFigures disk options directory figures).run = figures.filter fun figure =>
      !(disk.anyPresent (figurePaths options directory figure.path)).run := by
  induction figures with
  | nil => rfl
  | cons figure rest ih =>
      have hstep : (missingFigures disk options directory (figure :: rest)).run =
          if (disk.anyPresent (figurePaths options directory figure.path)).run then
            (missingFigures disk options directory rest).run
          else figure :: (missingFigures disk options directory rest).run := rfl
      rw [hstep, ih, List.filter_cons]
      cases (disk.anyPresent (figurePaths options directory figure.path)).run <;> rfl

theorem exists_command {figure : FigureReference}
    (h : figure ∈ missingIn disk options directory text) :
    ∃ source rest, text.drop figure.offset = source ++ rest ∧
      IsFigureCommand figure.path source := by
  rw [missingIn, missingFigures_eq_filter] at h
  exact (FigureReference.of_mem_figureReferences (List.mem_filter.mp h).1).2.2

theorem offset_lt_of_mem_missingIn {figure : FigureReference}
    (h : figure ∈ missingIn disk options directory text) : figure.offset < text.length := by
  obtain ⟨source, rest, htext, hcommand⟩ := exists_command h
  have hlength := congrArg List.length htext
  have hpos := List.length_pos_iff.mpr hcommand.ne_nil
  rw [List.length_drop, List.length_append] at hlength
  omega

theorem describes_commentOutMissing :
    (commentOutMissing disk options directory text).Describes options.marker text (segment text)
      (missingIn disk options directory text) :=
  describes_commentOutFigures _ _ _ fun _ h => Nat.le_of_lt (offset_lt_of_mem_missingIn h)

theorem exists_starts :
    ∃ starts, starts.Pairwise (· < ·) ∧
      (∀ start, start ∈ starts ↔ ∃ figure ∈ commentedFigures disk options directory text,
        Text.startOfLine text figure.offset = start) ∧
      (commentOutMissing disk options directory text).draft.apply =
        withMarks options.marker text starts := by
  have hpass := @describes_commentOutMissing disk options directory text
  have hsound : (commentOutMissing disk options directory text).draft.IsSound :=
    (marks_commentOutFigures _ _ _).sound
  generalize commentOutMissing disk options directory text = pass at *
  have hedits : pass.draft.edits = pass.marked.reverse.map (mark options.marker) := by
    rw [hpass.draft]
  have htext : pass.draft.text = text := by rw [hpass.draft]
  generalize hstarts : Edit.arrange (mark options.marker) text.length pass.marked.reverse = starts
  have horder : Edit.inTextOrder text.length pass.draft.edits =
      starts.map (mark options.marker) := by
    rw [hedits, ← Edit.map_arrange, hstarts]
  have hbound : ∀ start ∈ pass.marked, start ≤ text.length := by
    intro start hstart
    have hedit := hsound.bound (mark options.marker start)
      (hedits ▸ List.mem_map_of_mem (List.mem_reverse.mpr hstart))
    rwa [htext] at hedit
  -- The pass records the starts as it meets the figures; the edits are sorted.
  have hperm : starts.Perm pass.marked := by
    rw [← hstarts]
    exact (Edit.arrange_perm fun start hstart => hbound start (List.mem_reverse.mp hstart)).trans
      (List.reverse_perm _)
  have hfollow : Edit.Follow (starts.map (mark options.marker)) :=
    horder ▸ Edit.follow_inTextOrder hsound.apart
  refine ⟨starts, ?_, fun start => ?_, ?_⟩
  · have hne : starts.Pairwise (· ≠ ·) := hperm.nodup_iff.mpr hpass.nodup
    rw [Edit.Follow, List.pairwise_map] at hfollow
    exact hfollow.imp₂ (fun _ _ hle hne => Nat.lt_of_le_of_ne hle hne) hne
  · rw [hperm.mem_iff, hpass.marked, commentedFigures]
    simp [and_assoc]
  · have hupper : ∀ edit ∈ starts.map (mark options.marker),
        edit.offset + edit.length ≤ text.length := by
      rw [List.forall_mem_map]
      exact fun start hstart => hbound start (hperm.mem_iff.mp hstart)
    rw [hsound.apply_eq, htext, horder, withMarks,
      Edit.foldr_apply_eq hfollow (fun _ _ => Nat.zero_le _) hupper]
    rfl

theorem filter_applied_fixes :
    (commentOutMissing disk options directory text).fixes.filter (·.applied) =
      (commentedFigures disk options directory text).map (FigurePass.commented ·.path) := by
  rw [describes_commentOutMissing.fixes, commentedFigures]
  induction missingIn disk options directory text with
  | nil => rfl
  | cons figure rest ih =>
      rw [List.filterMap_cons, List.filter_cons]
      cases hfigure : figure.isCommentable text (segment text) with
      | true =>
          rw [FigureReference.fix?_of_isCommentable hfigure, List.filter_cons_of_pos rfl, ih]
          rfl
      | false =>
          cases hfix : figure.fix? text (segment text) with
          | none => exact ih
          | some fix =>
              have happlied := FigureReference.applied_of_fix? hfigure hfix
              rw [List.filter_cons_of_neg (by simp [happlied]), ih]
              rfl

theorem offset_lt_of_mem_commentedFigures {figure : FigureReference}
    (h : figure ∈ commentedFigures disk options directory text) : figure.offset < text.length :=
  offset_lt_of_mem_missingIn (List.mem_of_mem_filter h)

theorem startOfLine_spec_of_mem {figure : FigureReference}
    (h : figure ∈ commentedFigures disk options directory text) :
    Text.IsLineStart text (Text.startOfLine text figure.offset) ∧
      Text.lineNumber text (Text.startOfLine text figure.offset) =
        Text.lineNumber text figure.offset := by
  have hoffset := Nat.le_of_lt (offset_lt_of_mem_commentedFigures h)
  exact ⟨(Text.startOfLine_spec hoffset).2.1, Text.lineNumber_startOfLine hoffset⟩

theorem mem_map_lineNumber_iff {starts : List Nat}
    (hstarts : ∀ start, start ∈ starts ↔ ∃ figure ∈ commentedFigures disk options directory text,
      Text.startOfLine text figure.offset = start) {number : Nat} :
    number ∈ starts.map (Text.lineNumber text) ↔
      number ∈ (commentedFigures disk options directory text).map
        (Text.lineNumber text ·.offset) := by
  simp only [List.mem_map, hstarts]
  constructor
  · rintro ⟨start, ⟨figure, hfigure, rfl⟩, rfl⟩
    exact ⟨figure, hfigure, (startOfLine_spec_of_mem hfigure).2.symm⟩
  · rintro ⟨figure, hfigure, rfl⟩
    exact ⟨_, ⟨figure, hfigure, rfl⟩, (startOfLine_spec_of_mem hfigure).2⟩

theorem lines_commentOutMissing (hmarker : options.marker.IsUnbroken) :
    Text.lines (commentOutMissing disk options directory text).draft.apply =
      (Text.lines text).mapIdx fun number line =>
        if number ∈ (commentedFigures disk options directory text).map
            (Text.lineNumber text ·.offset) then options.marker ++ line
        else line := by
  obtain ⟨starts, hsorted, hstarts, hout⟩ := @exists_starts disk options directory text
  rw [hout, lines_withMarks hmarker hsorted]
  · simp only [mem_map_lineNumber_iff hstarts]
  · intro start hstart
    obtain ⟨figure, hfigure, rfl⟩ := (hstarts start).mp hstart
    exact (startOfLine_spec_of_mem hfigure).1

/--
The pass writes the marker in front of the lines of the figures that it records as commented
out.  All of a command follows the marker on one line exactly if neither the marker nor the
command holds a line feed.
-/
theorem commentOutMissing_lines (disk : Disk Id) (options : FigureOptions) (directory text : Text) :
    let pass := commentOutMissing disk options directory text
    let figures := commentedFigures disk options directory text
    pass.fixes.filter (·.applied) = figures.map (FigurePass.commented ·.path) ∧
    (options.marker.IsUnbroken → Text.lines pass.draft.apply =
      (Text.lines text).mapIdx fun number line =>
        if number ∈ figures.map (Text.lineNumber text ·.offset) then options.marker ++ line
        else line) ∧
    ∀ figure ∈ figures, ∃ command, IsFigureCommand figure.path command ∧
      command <+: text.drop figure.offset ∧
      ((∃ after, (Text.lines pass.draft.apply)[Text.lineNumber text figure.offset]? =
          some (options.marker ++
            (text.slice (Text.startOfLine text figure.offset) figure.offset ++
              (command ++ after)))) ↔
        options.marker.IsUnbroken ∧ command.IsUnbroken) := by
  intro pass figures
  refine ⟨filter_applied_fixes, lines_commentOutMissing, fun figure hfigure => ?_⟩
  have hoffset : figure.offset ≤ text.length :=
    Nat.le_of_lt (offset_lt_of_mem_commentedFigures hfigure)
  obtain ⟨hstart, -, -⟩ := Text.startOfLine_spec hoffset
  obtain ⟨hend, -, -⟩ := Text.endOfLine_spec hoffset
  obtain ⟨command, rest, hcommand, hshape⟩ := exists_command (List.mem_of_mem_filter hfigure)
  refine ⟨command, hshape, ⟨rest, hcommand.symm⟩, ?_, ?_⟩
  · rintro ⟨after, hline⟩
    have hunbroken := Text.isUnbroken_of_mem_lines (List.mem_of_getElem? hline)
    simp only [Text.isUnbroken_append] at hunbroken
    exact ⟨hunbroken.1, hunbroken.2.2.1⟩
  · rintro ⟨hmarker, hunbroken⟩
    have hnumber : Text.lineNumber text figure.offset ∈
        figures.map (Text.lineNumber text ·.offset) := List.mem_map_of_mem hfigure
    have hbehind : text.slice figure.offset (Text.endOfLine text figure.offset) =
        command ++ rest.takeWhile (· != ('\n' : UInt8)) := by
      rw [Text.slice_endOfLine, hcommand, List.takeWhile_append_of_pos]
      exact fun b hb => bne_iff_ne.mpr fun heq => hunbroken (heq ▸ hb)
    refine ⟨rest.takeWhile (· != ('\n' : UInt8)), ?_⟩
    rw [lines_commentOutMissing hmarker, List.getElem?_mapIdx,
      Text.getElem?_lines_lineNumber hoffset, Option.map_some, if_pos hnumber, Text.lineHolding,
      ← text.slice_append_slice hstart hend, hbehind]

/-- The second command goes on behind the line that is commented out. -/
theorem commentOutMissing_lines_broken :
    let disk : Disk Id := ⟨[], fun _ => false, fun _ => none, fun _ _ => .refused⟩
    let text : Text := "a \\includegraphics\x7bgone\x7d b\n\\includegraphics[x\ny]\x7blost\x7d"
    let pass := commentOutMissing disk {} [] text
    pass.fixes.filter (·.applied) = [FigurePass.commented "gone", FigurePass.commented "lost"] ∧
    Text.lines pass.draft.apply = ["% FIXME: missing file - a \\includegraphics\x7bgone\x7d b",
      "% FIXME: missing file - \\includegraphics[x", "y]\x7blost\x7d"] ∧
    ∃ command, IsFigureCommand "lost" command ∧ command <+: text.drop 27 ∧
      ((∃ after, (Text.lines pass.draft.apply)[1]? =
          some ("% FIXME: missing file - " ++ (text.slice 27 27 ++ (command ++ after)))) ↔
        Text.IsUnbroken "% FIXME: missing file - " ∧ command.IsUnbroken) := by
  intro disk text pass
  have hfigures : commentedFigures disk {} [] text = [⟨"gone", 2⟩, ⟨"lost", 27⟩] := by
    decide +kernel
  obtain ⟨hfixes, hlines, hcommands⟩ := commentOutMissing_lines disk {} [] text
  rw [hfigures] at hfixes hlines hcommands
  refine ⟨hfixes, (hlines (by decide +kernel)).trans (by decide +kernel), ?_⟩
  exact hcommands ⟨"lost", 27⟩ (by decide)

end Repair

end LatexIntegrity
