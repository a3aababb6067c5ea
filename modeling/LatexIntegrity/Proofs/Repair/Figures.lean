import LatexIntegrity.Proofs.Edit.Delimiters
import LatexIntegrity.Repair.Figures

/-!
# Commenting out figures

All that the pass over the figures of a text inserts are markers at the beginning of
lines, which leaves the delimiters of the text as they are.
-/

namespace LatexIntegrity.Repair

namespace FigurePass

/-- All that a pass has changed so far are markers at the beginning of lines. -/
structure Marks (marker : Text) (start : Draft) (pass : FigurePass) : Prop where
  text : pass.draft.text = start.text
  sound : pass.draft.IsSound
  marks : ∀ edit ∈ pass.draft.edits, edit.length = 0 ∧ edit.replacement = marker ∧
    start.isLineStart edit.offset = true
  applied : pass.draft.edits.length ≤ Fix.countApplied pass.fixes

variable {marker : Text} {start : Draft} {pass : FigurePass}

theorem countApplied_leave (pass : FigurePass) (path reason : Text) :
    Fix.countApplied (pass.leave path reason).fixes = Fix.countApplied pass.fixes := by
  simp [leave, Fix.countApplied, leftInPlace]

theorem countApplied_record (pass : FigurePass) (path : Text) :
    Fix.countApplied (pass.record path).fixes = Fix.countApplied pass.fixes + 1 := by
  simp [record, Fix.countApplied, commented]

theorem Marks.leave (h : Marks marker start pass) (path reason : Text) :
    Marks marker start (pass.leave path reason) := by
  refine ⟨h.text, h.sound, h.marks, ?_⟩
  rw [countApplied_leave]
  exact h.applied

theorem Marks.record (h : Marks marker start pass) (path : Text) :
    Marks marker start (pass.record path) := by
  refine ⟨h.text, h.sound, h.marks, ?_⟩
  rw [countApplied_record]
  exact Nat.le_succ_of_le h.applied

theorem Marks.commentOut (h : Marks marker start pass) (figure : FigureReference) :
    Marks marker start (pass.commentOut marker figure) := by
  simp only [FigurePass.commentOut]
  split
  · exact h
  · split
    · exact h.record _
    · split
      · exact h.leave _ _
      · split
        · exact h.leave _ _
        · next draft hinsert =>
            obtain ⟨hsound, rfl, hline⟩ := h.sound.insertAtLine? hinsert
            unfold Draft.isLineStart at hline
            rw [h.text] at hline
            refine ⟨h.text, hsound, ?_, ?_⟩
            · intro edit hedit
              rcases List.mem_append.mp hedit with hedit | hedit
              · exact h.marks edit hedit
              · obtain rfl := List.mem_singleton.mp hedit
                exact ⟨rfl, rfl, by rw [h.text]; exact hline⟩
            · rw [countApplied_record]
              simpa [FigurePass.record, Draft.record] using h.applied

end FigurePass

theorem marks_commentOutFigures (marker text : Text) (missing : List FigureReference) :
    FigurePass.Marks marker { text := text, spans := segment text }
      (commentOutFigures marker text (segment text) missing) := by
  induction missing using List.reverseRecOn with
  | nil => exact ⟨rfl, Draft.isSound_segment text, by simp [commentOutFigures],
      Nat.le_refl 0⟩
  | append_singleton missing figure ih =>
      unfold commentOutFigures at ih ⊢
      rw [List.foldl_concat]
      exact ih.commentOut figure

theorem apply_commentOutFigures_of_countApplied {marker text : Text}
    {missing : List FigureReference}
    (h : Fix.countApplied (commentOutFigures marker text (segment text) missing).fixes = 0) :
    (commentOutFigures marker text (segment text) missing).draft.apply = text := by
  have hmarks := marks_commentOutFigures marker text missing
  have happlied := hmarks.applied
  rw [h, Nat.le_zero, List.length_eq_zero_iff] at happlied
  rw [Draft.apply_of_nil happlied, hmarks.text]

theorem tokensFrom_commentOutFigures {marker : Text} (hmarker : ('\\' : UInt8) ∉ marker)
    (text : Text) (missing : List FigureReference) :
    tokensFrom .initial (commentOutFigures marker text (segment text) missing).draft.apply =
      tokensFrom .initial text := by
  have hmarks := marks_commentOutFigures marker text missing
  generalize commentOutFigures marker text (segment text) missing = pass at hmarks
  have hordered : ∀ edit ∈ Edit.inTextOrder text.length pass.draft.edits, edit.length = 0 ∧
      edit.replacement = marker ∧
        Draft.isLineStart { text := text, spans := segment text } edit.offset = true :=
    fun edit hedit => hmarks.marks edit (Edit.mem_arrange.mp hedit).1
  rw [hmarks.sound.apply_eq, hmarks.text]
  exact tokensFrom_splice_marks hmarker hordered (Edit.follow_inTextOrder hmarks.sound.apart)
    fun _ _ => Nat.zero_le _

end LatexIntegrity.Repair
