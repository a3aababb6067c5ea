import LatexIntegrity.Proofs.Repair.Rounds
import LatexIntegrity.Proofs.Repair.Validation
import LatexIntegrity.Proofs.Sanitize.WellFormed

/-!
# Repairs of well-formed texts

The edits of a round begin and end where a well-formed text may be cut: in front of the
angle bracket or the backslash of what they take out, behind the bracket or the brace that
closes it, in front of white space, and at the beginning of lines.
-/

namespace LatexIntegrity

open Utf8 (WellFormed isContinuation)

/-! ## Edits -/

namespace Edit

structure IsWellFormed (text : Text) (edit : Edit) : Prop where
  before : WellFormed (text.take edit.offset)
  through : WellFormed (text.take (edit.offset + edit.length))
  written : WellFormed edit.replacement

theorem wellFormed_splice {text : Text} {edits : List Edit} {position : Nat}
    (h : WellFormed text) (hposition : WellFormed (text.take position)) (hfollow : Follow edits)
    (hlower : ∀ edit ∈ edits, position ≤ edit.offset)
    (hedits : ∀ edit ∈ edits, edit.IsWellFormed text) :
    WellFormed (splice text position edits) := by
  induction edits generalizing position with
  | nil => exact h.drop hposition
  | cons edit rest ih =>
      obtain ⟨hnext, hrest⟩ := List.pairwise_cons.mp hfollow
      obtain ⟨hedit, hedits⟩ := List.forall_mem_cons.mp hedits
      have hgap : WellFormed (text.slice position edit.offset) := by
        have hbefore := hedit.before
        rw [← text.take_append_slice (hlower edit List.mem_cons_self)] at hbefore
        exact hbefore.of_append hposition
      rw [splice]
      exact (hgap.append hedit.written).append (ih hedit.through hrest hnext hedits)

end Edit

theorem Draft.IsSound.wellFormed_apply {draft : Draft} (h : draft.IsSound)
    (htext : WellFormed draft.text) (hedits : ∀ edit ∈ draft.edits, edit.IsWellFormed draft.text) :
    WellFormed draft.apply := by
  rw [h.apply_eq]
  exact Edit.wellFormed_splice htext Utf8.wellFormed_nil (Edit.follow_inTextOrder h.apart)
    (fun _ _ => Nat.zero_le _) fun edit hedit => hedits edit (Edit.mem_arrange.mp hedit).1

namespace Repair

variable {text : Text}

/-! ## Tags -/

theorem wellFormed_tagReplacements : ∀ replacement ∈ tagReplacements, WellFormed replacement := by
  decide +kernel

theorem IsTagEdit.wellFormed {edit : Edit} (h : IsTagEdit text edit) (htext : WellFormed text) :
    edit.IsWellFormed text := by
  obtain ⟨hopened, hclosed⟩ := h.tag
  have hlength := h.tag.one_lt
  refine ⟨htext.take ?_, ?_, wellFormed_tagReplacements _ h.written⟩
  · rw [List.head?_eq_getElem?, hopened]
    rintro _ ⟨⟩
    decide
  · rw [List.getElem?_drop] at hclosed
    have hthrough := htext.take_succ hclosed (by decide)
    rwa [Nat.add_assoc, Nat.sub_add_cancel (by omega)] at hthrough

theorem wellFormed_replaceTags (h : WellFormed text) : WellFormed (replaceTags text).1 := by
  have hrecords := (accounts_tagScan text).records
  rw [replaceTags_eq]
  apply hrecords.sound.wellFormed_apply
  · rwa [hrecords.text]
  · rw [hrecords.text]
    exact fun edit hedit => (hrecords.edits edit hedit).wellFormed h

/-! ## Closers -/

theorem toNat_lt_of_isNameByte {b : UInt8} (h : Environment.isNameByte b = true) :
    b.toNat < 0x80 := by
  revert b
  apply Ascii.forall_byte
  decide +kernel

theorem toNat_lt_of_isSpace {b : UInt8} (h : Ascii.isSpace b = true) : b.toNat < 0x80 := by
  revert b
  apply Ascii.forall_byte
  decide +kernel

theorem wellFormed_source {token : DelimiterToken} (h : Environment.IsName token.name) :
    WellFormed token.source := by
  have hname : WellFormed token.name :=
    Utf8.wellFormed_of_ascii fun b hb => toNat_lt_of_isNameByte (h.2 b hb)
  have hside : ∀ side, WellFormed ("\\" ++ DelimiterSide.word side ++ "\x7b") := by
    rintro (_ | _) <;> exact Utf8.wellFormed_of_all (by decide)
  exact ((hside token.side).append hname).append (Utf8.wellFormed_of_all (by decide))

theorem wellFormed_removal {delimiter : Delimiter} (htext : WellFormed text)
    (h : delimiterAt? text delimiter.position = some delimiter) :
    delimiter.removal.IsWellFormed text := by
  have hdrop := drop_of_delimiterAt? h
  have hsource := wellFormed_source (isName_of_delimiterAt? h)
  have hwhole : WellFormed (text.take delimiter.position ++
      (delimiter.source ++ text.drop delimiter.stop)) := by
    rwa [← hdrop, List.take_append_drop]
  obtain ⟨hbefore, -⟩ := hwhole.cut_part hsource (DelimiterToken.source_ne_nil _)
  refine ⟨hbefore, ?_, Utf8.wellFormed_nil⟩
  simp only [Delimiter.removal]
  rw [List.take_add, hdrop, List.take_left]
  exact hbefore.append hsource

theorem wellFormed_appendixFor {names : List Text} (h : ∀ name ∈ names, Environment.IsName name) :
    WellFormed (CloserPass.appendixFor names) := by
  unfold CloserPass.appendixFor
  rw [List.flatMap_def]
  apply WellFormed.flatten
  intro line hline
  obtain ⟨name, hname, rfl⟩ := List.mem_map.mp hline
  rw [Environment.closer_eq_source]
  have hfeed : WellFormed (Text.ofString "\n") := Utf8.wellFormed_of_all (by decide)
  exact hfeed.append (wellFormed_source (h name hname))

theorem wellFormed_of_mem_appendixEdits {names : List Text} (htext : WellFormed text)
    (hnames : ∀ name ∈ names, Environment.IsName name) {edit : Edit}
    (h : edit ∈ CloserPass.appendixEdits text names) : edit.IsWellFormed text := by
  obtain ⟨hle, hblank, -⟩ := CloserPass.contentEnd_spec (tiles_segment text)
  unfold CloserPass.appendixEdits at h
  split at h
  · cases h
  · rw [List.mem_singleton.mp h]
    have hfeed : WellFormed (Text.ofString "\n") := Utf8.wellFormed_of_all (by decide)
    generalize CloserPass.contentEnd text (segment text) = limit at hle hblank
    refine ⟨htext.take ?_, ?_, (wellFormed_appendixFor hnames).append hfeed⟩
    · exact fun b hb => toNat_lt_of_isSpace (hblank b (List.mem_of_head? hb))
    · simp only
      rwa [Nat.add_sub_cancel' hle, List.take_length]

theorem wellFormed_balanceEnvironments (h : WellFormed text) :
    WellFormed (balanceEnvironments text).1 := by
  obtain ⟨removed, hsettles⟩ := settles_closerPass text
  obtain ⟨hsound, hfinish⟩ := hsettles.finish_spec
  rw [balanceEnvironments_eq]
  apply hsound.wellFormed_apply
  · rwa [hfinish]
  · rw [hfinish]
    intro edit hedit
    rcases List.mem_append.mp hedit with hedit | hedit
    · obtain ⟨delimiter, hdelimiter, rfl⟩ := List.mem_map.mp hedit
      exact wellFormed_removal h (hsettles.read hdelimiter)
    · exact wellFormed_of_mem_appendixEdits h (fun _ => isName_of_mem_missingNames) hedit

/-! ## Figures -/

theorem wellFormed_take_of_isLineStart {draft : Draft} {offset : Nat} (h : WellFormed draft.text)
    (hline : draft.isLineStart offset = true) : WellFormed (draft.text.take offset) := by
  simp only [Draft.isLineStart, Bool.and_eq_true, Bool.or_eq_true, beq_iff_eq] at hline
  obtain ⟨-, rfl | hfeed⟩ := hline
  · exact Utf8.wellFormed_nil
  · cases offset with
    | zero => exact Utf8.wellFormed_nil
    | succ offset => exact h.take_succ hfeed (by decide)

theorem wellFormed_commentOutFigures {marker : Text} (hmarker : WellFormed marker)
    (h : WellFormed text) (missing : List FigureReference) :
    WellFormed (commentOutFigures marker text (segment text) missing).draft.apply := by
  have hmarks := marks_commentOutFigures marker text missing
  apply hmarks.sound.wellFormed_apply
  · rwa [hmarks.text]
  · rw [hmarks.text]
    intro edit hedit
    obtain ⟨hlength, rfl, hline⟩ := hmarks.marks edit hedit
    have hbefore := wellFormed_take_of_isLineStart h hline
    exact ⟨hbefore, by rwa [hlength, Nat.add_zero], hmarker⟩

/-! ## A round -/

theorem wellFormed_repairOnce {disk : Disk Id} {options : FigureOptions} {directory : Text}
    (hmarker : WellFormed options.marker) (h : WellFormed text) :
    WellFormed (repairOnce disk options directory text) := by
  unfold repairOnce
  split
  · exact h
  · exact wellFormed_commentOutFigures hmarker
      (wellFormed_balanceEnvironments (wellFormed_replaceTags h)) _

/--
Sanitization in both scopes and rounds of repair turn well-formed texts into well-formed
texts, whatever files there are.
-/
theorem wellFormed_sanitize_and_round (h : WellFormed text) :
    (∀ scope, WellFormed (sanitize .standard scope text)) ∧
    ∀ (disk : Disk Id) (options : FigureOptions) (directory : Text)
      (issues : Option (List Issue)), WellFormed options.marker →
        WellFormed (round disk options directory issues text).run.text := by
  refine ⟨wellFormed_sanitize h, fun disk options directory issues hmarker => ?_⟩
  rw [round_eq]
  exact wellFormed_repairOnce hmarker h

/-- A quotation mark and letters of two bytes next to a tag, a table and a missing figure. -/
theorem wellFormed_sanitize_and_round_umlauts :
    let text : Text :=
      "“Größe” <b>ä</b>\n\\begin\x7btabular\x7d\x7bc\x7dü < 1\n\\includegraphics\x7bö\x7d\n"
    let disk : Disk Id := ⟨[], fun _ => false, fun _ => none, fun _ _ => .refused⟩
    WellFormed text ∧ WellFormed (FigureOptions.marker { }) ∧
      (∀ scope, WellFormed (sanitize .standard scope text)) ∧
        WellFormed (round disk { } [] none text).run.text := by
  intro text disk
  have htext : WellFormed text := by decide +kernel
  have hmarker : WellFormed (FigureOptions.marker { }) := by decide +kernel
  obtain ⟨hsanitize, hround⟩ := wellFormed_sanitize_and_round htext
  exact ⟨htext, hmarker, hsanitize, hround disk { } [] none hmarker⟩

end Repair

end LatexIntegrity
