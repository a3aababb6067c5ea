import Mathlib.Logic.Function.Iterate
import LatexIntegrity.Proofs.Repair.MarkedFigures
import LatexIntegrity.Proofs.Settings.Assignments

/-!
# The pass over its own output

A line that has a marker is a comment line, and no figure of it is commented out again.  A
second pass finds nothing to do if the first one leaves the regions and the commands of all
other lines as they are.
-/

namespace LatexIntegrity

def ClassedText.isCommentable (line : ClassedText) : Bool :=
  !Repair.FigurePass.isCommentLine line.bytes && !Repair.FigurePass.holdsDelimiter line.bytes &&
    line.head?.any fun item => item.2.isFree || item.2.isInEnvironment Environment.isFigure

namespace Repair

open ClassedText (FiguresEndOnLines)

variable {disk : Disk Id} {options : FigureOptions} {directory text marker : Text}
  {figure : FigureReference}

/-! ## Which lines are commented out -/

theorem isCommentable_eq (h : figure ∈ missingIn disk options directory text) :
    ∃ line, (classedLines text)[Text.lineNumber text figure.offset]? = some line ∧
      figure.isCommentable text (segment text) = line.isCommentable := by
  have hlt := offset_lt_of_mem_missingIn h
  have hoffset := Nat.le_of_lt hlt
  obtain ⟨hstart, hbegins, -⟩ := Text.startOfLine_spec hoffset
  obtain ⟨item, hitem, hfirst⟩ := exists_head?_firstLine h
  have hfound := (beginsLine_classed_iff.mpr hbegins.beginsLine).isLineBetween.getElem?_splitOnP
  rw [Text.firstLine_append_behind, List.take_append_drop, countP_take_classed,
    Text.lineNumber_startOfLine hoffset] at hfound
  have hbytes := Text.getElem?_lines_lineNumber hoffset
  rw [← map_bytes_classedLines, List.getElem?_map, classedLines, hfound, Option.map_some,
    Option.some.injEq] at hbytes
  refine ⟨_, hfound, ?_⟩
  rw [FigureReference.isCommentable, isReplaceable_eq (Nat.lt_of_le_of_lt hstart hlt),
    isInFigure_eq, hitem, ClassedText.isCommentable, hbytes, hfirst]
  rfl

def isMissing (disk : Disk Id) (options : FigureOptions) (directory path : Text) : Bool :=
  !(disk.anyPresent (figurePaths options directory path)).run

theorem mem_commentedLines_iff (hends : FiguresEndOnLines 0 .initial (classed text))
    {number : Nat} :
    number ∈ (commentedFigures disk options directory text).map (Text.lineNumber text ·.offset) ↔
      ∃ line, (classedLines text)[number]? = some line ∧ line.isCommentable = true ∧
        ∃ path ∈ line.lineFigures, isMissing disk options directory path = true := by
  have hlisted : ∀ path, (∃ figure ∈ figureReferences text (segment text),
      figure.path = path ∧ Text.lineNumber text figure.offset = number) ↔
        ∃ line, (classedLines text)[number]? = some line ∧ path ∈ line.lineFigures := by
    intro path
    have hmem := @ClassedText.mem_figuresFrom_iff (classed text) path number hends
    rw [← map_figureReferences, List.mem_map] at hmem
    simp only [Prod.mk.injEq] at hmem
    exact hmem
  constructor
  · intro h
    obtain ⟨figure, hfigure, rfl⟩ := List.mem_map.mp h
    obtain ⟨hmissing, hcommentable⟩ := List.mem_filter.mp hfigure
    obtain ⟨line, hline, heq⟩ := isCommentable_eq hmissing
    rw [missingIn, missingFigures_eq_filter, List.mem_filter] at hmissing
    obtain ⟨other, hother, hpath⟩ := (hlisted figure.path).mp ⟨figure, hmissing.1, rfl, rfl⟩
    obtain rfl := Option.some.inj (hline.symm.trans hother)
    exact ⟨line, hline, heq ▸ hcommentable, figure.path, hpath, hmissing.2⟩
  · rintro ⟨line, hline, hcommentable, path, hpath, hmissing⟩
    obtain ⟨figure, hfigure, rfl, rfl⟩ := (hlisted path).mpr ⟨line, hline, hpath⟩
    have hmem : figure ∈ missingIn disk options directory text := by
      rw [missingIn, missingFigures_eq_filter, List.mem_filter]
      exact ⟨hfigure, hmissing⟩
    obtain ⟨other, hother, heq⟩ := isCommentable_eq hmem
    obtain rfl := Option.some.inj (hline.symm.trans hother)
    exact List.mem_map_of_mem (List.mem_filter.mpr ⟨hmem, heq.trans hcommentable⟩)

/-! ## The second pass -/

theorem isCommentLine_append (h : FigurePass.isCommentLine marker = true) (line : Text) :
    FigurePass.isCommentLine (marker ++ line) = true := by
  rw [FigurePass.isCommentLine, beq_iff_eq] at h ⊢
  obtain ⟨rest, hrest⟩ := List.head?_eq_some_iff.mp h
  rw [Text.trimStart] at hrest ⊢
  rw [List.dropWhile_append, hrest]
  rfl

theorem isCommentLine_of_isPlainMarker (h : IsPlainMarker marker) :
    FigurePass.isCommentLine marker = true := by
  obtain ⟨rest, rfl⟩ := List.head?_eq_some_iff.mp h.head
  rfl

theorem commentedFigures_commentOutMissing (hmarker : IsPlainMarker options.marker)
    (hclosed : ∀ figure ∈ commentedFigures disk options directory text,
      figure.HasClosedLine text)
    (hends : ∀ figure ∈ figureReferences text (segment text), figure.EndsOnLine text) :
    commentedFigures disk options directory
      (commentOutMissing disk options directory text).draft.apply = [] := by
  have hlines := classedLines_commentOutMissing hmarker hclosed
  have hbefore := figuresEndOnLines_classed hends
  generalize hout : (commentOutMissing disk options directory text).draft.apply = out at hlines ⊢
  have hmarks : ClassedText.HasMarks options.marker (classed text) (classed out) := by
    refine ClassedText.hasMarks_of_forall₂ ?_
    rw [← classedLines, ← classedLines, hlines]
    refine Text.forall₂_mapIdx fun number line _ => ?_
    split
    · exact .inr rfl
    · exact .inl rfl
  have hafter := hmarks.figuresEndOnLines hmarker hbefore
  rw [← List.map_eq_nil_iff (f := (Text.lineNumber out ·.offset)),
    List.eq_nil_iff_forall_not_mem]
  intro number hnumber
  obtain ⟨line, hline, hcommentable, hmissing⟩ := (mem_commentedLines_iff hafter).mp hnumber
  rw [hlines, List.getElem?_mapIdx] at hline
  obtain ⟨source, hsource, rfl⟩ := Option.map_eq_some_iff.mp hline
  split at hcommentable
  · -- A line with a marker is a comment line.
    have hcomment := isCommentLine_append (isCommentLine_of_isPlainMarker hmarker) source.bytes
    rw [ClassedText.isCommentable, ClassedText.bytes_markLine, hcomment] at hcommentable
    cases hcommentable
  · next hunmarked =>
      -- Another line is as it was, and the first pass has dealt with it.
      rw [if_neg hunmarked] at hmissing
      exact hunmarked ((mem_commentedLines_iff hbefore).mpr
        ⟨source, hsource, hcommentable, hmissing⟩)

theorem commentOutMissing_of_commentedFigures
    (h : commentedFigures disk options directory text = []) :
    (commentOutMissing disk options directory text).fixes.filter (·.applied) = [] ∧
      (commentOutMissing disk options directory text).draft.apply = text := by
  obtain ⟨starts, -, hstarts, hout⟩ := @exists_starts disk options directory text
  have hnone : starts = [] := by
    refine List.eq_nil_iff_forall_not_mem.mpr fun start hstart => ?_
    obtain ⟨figure, hfigure, -⟩ := (hstarts start).mp hstart
    rw [h] at hfigure
    cases hfigure
  rw [filter_applied_fixes, h, hout, hnone]
  exact ⟨rfl, rfl⟩

/-! ## Repeated passes -/

/-- The line is as it was, or it has got a marker that makes it a comment line. -/
def IsMarkedOnce (marker line line' : Text) : Prop :=
  line' = line ∨ FigurePass.isCommentLine line = false ∧ line' = marker ++ line

theorem isMarkedOnce_commentOutMissing (hmarker : options.marker.IsUnbroken) (text : Text) :
    List.Forall₂ (IsMarkedOnce options.marker) (Text.lines text)
      (Text.lines (commentOutMissing disk options directory text).draft.apply) := by
  rw [lines_commentOutMissing hmarker]
  refine Text.forall₂_mapIdx fun number line hline => ?_
  split
  · next hnumber =>
      obtain ⟨figure, hfigure, rfl⟩ := List.mem_map.mp hnumber
      have hoffset := Nat.le_of_lt (offset_lt_of_mem_commentedFigures hfigure)
      rw [Text.getElem?_lines_lineNumber hoffset, Option.some.injEq] at hline
      have hcommentable := (List.mem_filter.mp hfigure).2
      simp only [FigureReference.isCommentable, Bool.and_eq_true, Bool.not_eq_true', hline]
        at hcommentable
      exact .inr ⟨hcommentable.1.1, rfl⟩
  · exact .inl rfl

theorem IsMarkedOnce.trans (hmarker : FigurePass.isCommentLine marker = true)
    {line line' line'' : Text} (h : IsMarkedOnce marker line line')
    (h' : IsMarkedOnce marker line' line'') : IsMarkedOnce marker line line'' := by
  rcases h with rfl | ⟨hline, rfl⟩
  · exact h'
  · rcases h' with rfl | ⟨hline', -⟩
    · exact .inr ⟨hline, rfl⟩
    · rw [isCommentLine_append hmarker] at hline'
      cases hline'

theorem forall₂_isMarkedOnce_trans (hmarker : FigurePass.isCommentLine marker = true)
    {lines lines' lines'' : List Text} (h : List.Forall₂ (IsMarkedOnce marker) lines lines')
    (h' : List.Forall₂ (IsMarkedOnce marker) lines' lines'') :
    List.Forall₂ (IsMarkedOnce marker) lines lines'' := by
  induction h generalizing lines'' with
  | nil => exact h'
  | cons hline _ ih =>
      cases h' with
      | cons hline' hrest' => exact .cons (hline.trans hmarker hline') (ih hrest')

theorem isMarkedOnce_iterate (hunbroken : options.marker.IsUnbroken)
    (hmarker : FigurePass.isCommentLine options.marker = true) (text : Text) (passes : Nat) :
    List.Forall₂ (IsMarkedOnce options.marker) (Text.lines text)
      (Text.lines ((fun text =>
        (commentOutMissing disk options directory text).draft.apply)^[passes] text)) := by
  induction passes with
  | zero => exact List.forall₂_same.mpr fun line _ => .inl rfl
  | succ passes ih =>
      rw [Function.iterate_succ_apply']
      exact forall₂_isMarkedOnce_trans hmarker ih (isMarkedOnce_commentOutMissing hunbroken _)

/--
However often the pass is repeated, a line gets at most one marker, if the marker of the
settings begins a comment.  After one pass nothing is left to do if no region that begins on
the line of a figure that is commented out goes on behind it and every command ends on its line.
-/
theorem commentOutMissing_again (disk : Disk Id) (contents : List Text) (directory text : Text) :
    let options := (contents.foldl Settings.apply .default).figures
    let pass := commentOutMissing disk options directory
    let out := (pass text).draft.apply
    (FigurePass.isCommentLine options.marker = true → ∀ passes : Nat,
      List.Forall₂ (IsMarkedOnce options.marker) (Text.lines text)
        (Text.lines ((fun text => (pass text).draft.apply)^[passes] text))) ∧
    (IsPlainMarker options.marker →
      (∀ figure ∈ commentedFigures disk options directory text, figure.HasClosedLine text) →
        (∀ figure ∈ figureReferences text (segment text), figure.EndsOnLine text) →
          (pass out).fixes.filter (·.applied) = [] ∧ (pass out).draft.apply = out) := by
  intro options pass out
  refine ⟨fun hmarker => isMarkedOnce_iterate (Settings.isUnbroken_marker contents) hmarker text,
    fun hmarker hclosed hends => ?_⟩
  exact commentOutMissing_of_commentedFigures
    (commentedFigures_commentOutMissing hmarker hclosed hends)

/--
The first marker begins a comment and is written once.  The second one does not, and in the
last text the first marker opens the region that the other figure stands in.
-/
theorem commentOutMissing_again_twice :
    let disk : Disk Id := ⟨[], fun _ => false, fun _ => none, fun _ _ => .refused⟩
    let options := fun content => (([content] : List Text).foldl Settings.apply .default).figures
    let passes := fun content count => (fun text =>
      (commentOutMissing disk (options content) [] text).draft.apply)^[count]
    let comment : Text := "[repair]\nmissing_figure_marker = %\n"
    let word : Text := "[repair]\nmissing_figure_marker = TODO\n"
    let text : Text := "\\includegraphics\x7bgone\x7d\n"
    let opening : Text := "\\includegraphics\x7bgone\x7d $\n\\includegraphics\x7blost\x7d $\n"
    passes comment 1 text = "% \\includegraphics\x7bgone\x7d\n" ∧
    passes comment 2 text = passes comment 1 text ∧
    List.Forall₂ (IsMarkedOnce "% ") (Text.lines text) (Text.lines (passes comment 7 text)) ∧
    passes word 2 text = "TODO TODO \\includegraphics\x7bgone\x7d\n" ∧
    passes comment 1 opening =
      "% \\includegraphics\x7bgone\x7d $\n\\includegraphics\x7blost\x7d $\n" ∧
    passes comment 2 opening =
      "% \\includegraphics\x7bgone\x7d $\n% \\includegraphics\x7blost\x7d $\n" := by
  intro disk options passes comment word text opening
  have hfigures : figureReferences text (segment text) = [⟨"gone", 0⟩] := by decide +kernel
  have hclosed : ∀ figure ∈ commentedFigures disk (options comment) [] text,
      figure.HasClosedLine text := by decide +kernel
  have hends : ∀ figure ∈ figureReferences text (segment text), figure.EndsOnLine text := by
    rw [hfigures, List.forall_mem_singleton]
    exact ⟨"\\includegraphics\x7bgone\x7d", by decide +kernel,
      ⟨[], .inl rfl, by decide, by decide, by decide +kernel⟩, by decide +kernel⟩
  have hmarker : (options comment).marker = "% " := by decide +kernel
  obtain ⟨honce, hnothing⟩ := commentOutMissing_again disk [comment] [] text
  refine ⟨by decide +kernel, ?_, ?_, by decide +kernel, by decide +kernel, by decide +kernel⟩
  · exact (hnothing (by decide +kernel) hclosed hends).2
  · rw [← hmarker]
    exact honce (by decide +kernel) 7

end Repair

end LatexIntegrity
