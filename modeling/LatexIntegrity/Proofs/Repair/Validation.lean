import Mathlib.Data.List.Count
import LatexIntegrity.Proofs.Balance.Hidden
import LatexIntegrity.Proofs.Repair.Closers
import LatexIntegrity.Proofs.Repair.Figures
import LatexIntegrity.Proofs.Repair.Tags
import LatexIntegrity.Repair.Round

/-!
# Validating a repaired text

A round balances the delimiters that count.  Its edits can change which ones count: a
closer that is appended can turn a comment into the inside of an environment, and a
delimiter that stood in the comment counts from then on.  Where every surplus closer can
be taken out, this is the only way in which an imbalance is left, unless taking out a
closer joins two halves of a delimiter.
-/

namespace LatexIntegrity.Repair

open Balance CloserPass

/-! ## The balanced text -/

theorem count_missingNames (text name : Text) :
    (missingNames (tallyOf text)).count name =
      (tokenOffsets text ⟨.opening, name⟩).length -
        (tokenOffsets text ⟨.closing, name⟩).length := by
  rw [length_tokenOffsets, length_tokenOffsets]
  exact Tally.count_names (f := Nat.sub) rfl _ name

theorem count_surplusNames (text name : Text) :
    (surplusNames (tallyOf text)).count name =
      (tokenOffsets text ⟨.closing, name⟩).length -
        (tokenOffsets text ⟨.opening, name⟩).length := by
  rw [length_tokenOffsets, length_tokenOffsets]
  exact Tally.count_names (f := fun opened closed => closed - opened) rfl _ name

theorem isName_of_mem_missingNames {text name : Text} (h : name ∈ missingNames (tallyOf text)) :
    Environment.IsName name := by
  have hcount := List.count_pos_iff.mpr h
  rw [count_missingNames] at hcount
  have hpos : 0 < (tokenOffsets text ⟨.opening, name⟩).length := by omega
  obtain ⟨offset, hoffset⟩ := List.exists_mem_of_length_pos hpos
  simp only [tokenOffsets, List.mem_filter, Bool.and_eq_true, beq_iff_eq] at hoffset
  exact isName_of_delimiterAt? hoffset.2.2

theorem count_balanceEnvironments {text : Text}
    (happlied : ∀ fix ∈ (balanceEnvironments text).2, fix.applied = true)
    (hends : ∀ edit ∈ (closerPass text).draft.edits,
      endsInDelimiter (text.take edit.offset) = false) (name : Text) :
    (tokensFrom .initial (balanceEnvironments text).1).count ⟨.opening, name⟩ =
        (tokenOffsets text ⟨.opening, name⟩).length +
          (hiddenOffsets text ⟨.opening, name⟩).length ∧
      (tokensFrom .initial (balanceEnvironments text).1).count ⟨.closing, name⟩ =
        (tokenOffsets text ⟨.opening, name⟩).length +
          (hiddenOffsets text ⟨.closing, name⟩).length := by
  obtain ⟨removed, hsettles⟩ := settles_closerPass text
  have hperm := hsettles.tokensFrom_apply (fun _ => isName_of_mem_missingNames) hends
  have hremoved : removed.map Delimiter.toDelimiterToken =
      (surplusNames (tallyOf text)).map (DelimiterToken.mk .closing) := by
    rw [← hsettles.complete happlied, List.map_map]
    apply List.map_congr_left
    rintro ⟨⟨side, other⟩, position⟩ hdelimiter
    obtain rfl : side = .closing := (hsettles.closers _ hdelimiter).2
    rfl
  have hinjective : Function.Injective (DelimiterToken.mk .closing) := by
    intro first second h
    cases h
    rfl
  have hnone : ∀ names : List Text,
      (names.map (DelimiterToken.mk .closing)).count ⟨.opening, name⟩ = 0 := by
    intro names
    apply List.count_eq_zero_of_not_mem
    intro hmem
    obtain ⟨_, -, heq⟩ := List.mem_map.mp hmem
    cases heq
  -- Openers are neither added nor taken out, so only the closers change their number.
  have hopening := hperm.count_eq ⟨.opening, name⟩
  have hclosing := hperm.count_eq ⟨.closing, name⟩
  rw [hremoved] at hopening hclosing
  rw [List.count_append, List.count_append, hnone, hnone, count_tokensFrom] at hopening
  rw [List.count_append, List.count_append, List.count_map_of_injective _ _ hinjective,
    List.count_map_of_injective _ _ hinjective, count_missingNames, count_surplusNames,
    count_tokensFrom] at hclosing
  simp only [balanceEnvironments_eq]
  omega

theorem balanceEnvironments_of_countApplied {text : Text}
    (h : Fix.countApplied (balanceEnvironments text).2 = 0) :
    (balanceEnvironments text).1 = text := by
  obtain ⟨removed, hsettles⟩ := settles_closerPass text
  simp only [balanceEnvironments_eq] at h ⊢
  rw [hsettles.applied] at h
  have hmissing : missingNames (tallyOf text) = [] := List.length_eq_zero_iff.mp (by omega)
  have hremoved : removed = [] := List.length_eq_zero_iff.mp (by omega)
  have hdraft := hsettles.draft
  rw [finish, if_pos (by simp [hsettles.appendix, hmissing, appendixFor]), hdraft, hremoved]
  exact Draft.apply_of_nil rfl

/-! ## A whole round -/

theorem text_report (issues : List Issue) (marker text : Text) (missing : List FigureReference) :
    (report issues text (repairMarkup text).2 (commentOutFigures marker (repairMarkup text).1
        (segment (repairMarkup text).1) missing)).text =
      (commentOutFigures marker (repairMarkup text).1 (segment (repairMarkup text).1)
        missing).draft.apply := by
  simp only [report, repairMarkup]
  apply ite_eq_right_iff.mpr
  intro hnone
  simp only [Fix.countApplied, List.countP_append, Nat.add_eq_zero_iff] at hnone
  obtain ⟨⟨htags, hclosers⟩, hfigures⟩ := hnone
  rw [apply_commentOutFigures_of_countApplied hfigures,
    balanceEnvironments_of_countApplied hclosers, replaceTags_of_countApplied htags]

/--
When a round takes out each surplus closer, and none of them out of the middle of another
delimiter, the repaired text is balanced exactly if the edits hide and uncover as many
openers as closers of each name, that is, put them into comments and definitions or take
them out of these.
-/
theorem balanceIssues_round (disk : Disk Id) (extensions : List Text) (directory : Text)
    (issues : Option (List Issue)) (text : Text) :
    let report : RoundReport := round disk { extensions := extensions } directory issues text
    let tagless := (replaceTags text).1
    (∀ fix ∈ report.fixes, Text.ofString "add_end_" <+: fix.name ∨
      Text.ofString "remove_end_" <+: fix.name → fix.applied = true) →
    (∀ edit ∈ (closerPass tagless).draft.edits,
      endsInDelimiter (tagless.take edit.offset) = false) →
    (balanceIssues report.text = [] ↔
      ∀ name, hiddenSurplus report.text name = hiddenSurplus tagless name) := by
  intro report tagless happlied hends
  obtain ⟨missing, hreport⟩ : ∃ missing, report = Repair.report (issues.getD (balanceIssues text))
      text (repairMarkup text).2 (commentOutFigures ({ } : FigureOptions).marker
        (repairMarkup text).1 (segment (repairMarkup text).1) missing) := ⟨_, rfl⟩
  have htext := text_report (issues.getD (balanceIssues text)) ({ } : FigureOptions).marker text
    missing
  have hclosers : ∀ fix ∈ (balanceEnvironments tagless).2, fix.applied = true := by
    obtain ⟨removed, hsettles⟩ := settles_closerPass tagless
    intro fix hfix
    refine happlied fix ?_ (hsettles.named fix hfix)
    rw [hreport]
    exact List.mem_append_left _ (List.mem_append_right _ hfix)
  have htokens : tokensFrom .initial report.text =
      tokensFrom .initial (balanceEnvironments tagless).1 := by
    rw [hreport, htext]
    exact tokensFrom_commentOutFigures (by decide +kernel) _ _
  rw [balanceIssues_eq_nil_iff]
  apply forall_congr'
  intro name
  -- Of each name there are as many closers as openers, counted or hidden, but for those
  -- that were hidden before.
  obtain ⟨hopening, hclosing⟩ := count_balanceEnvironments hclosers hends name
  rw [← htokens, count_tokensFrom] at hopening hclosing
  simp only [hiddenSurplus]
  omega

/-- One closer is taken out, and another one is appended. -/
theorem balanceIssues_round_exchange :
    let disk : Disk Id := ⟨[], fun _ => false, fun _ => none, fun _ _ => .refused⟩
    let text : Text := "a\\end\x7bx\x7d b\\begin\x7by\x7d\n"
    let report : RoundReport := round disk { extensions := [] } [] none text
    (∀ fix ∈ report.fixes, Text.ofString "add_end_" <+: fix.name ∨
      Text.ofString "remove_end_" <+: fix.name → fix.applied = true) ∧
    (∀ edit ∈ (closerPass (replaceTags text).1).draft.edits,
      endsInDelimiter ((replaceTags text).1.take edit.offset) = false) ∧
    report.fixes = [CloserPass.removed "x", CloserPass.added "y"] ∧
    (closerPass (replaceTags text).1).draft.edits = [⟨1, 7, []⟩] ∧
    report.text = "a b\\begin\x7by\x7d\n\\end\x7by\x7d\n" ∧
    (balanceIssues report.text = [] ↔
      ∀ name, hiddenSurplus report.text name = hiddenSurplus (replaceTags text).1 name) := by
  intro disk text report
  have hmarkup : repairMarkup text = (Text.ofString "a b\\begin\x7by\x7d\n\\end\x7by\x7d\n",
      [CloserPass.removed "x", CloserPass.added "y"]) := by
    have htags : replaceTags text = (text, []) := by decide +kernel
    have hbalanced : (balanceEnvironments text).1 =
        Text.ofString "a b\\begin\x7by\x7d\n\\end\x7by\x7d\n" := by
      rw [balanceEnvironments_eq_splice]
      decide +kernel
    simp only [repairMarkup, htags, hbalanced]
    decide +kernel
  have hfixes : report.fixes = [CloserPass.removed "x", CloserPass.added "y"] := by
    simp only [report, round, hmarkup]
    decide +kernel
  have hedits : (closerPass (replaceTags text).1).draft.edits = [⟨1, 7, []⟩] := by decide +kernel
  have htext : report.text = "a b\\begin\x7by\x7d\n\\end\x7by\x7d\n" := by
    simp only [report, round, hmarkup]
    decide +kernel
  have happlied : ∀ fix ∈ report.fixes, Text.ofString "add_end_" <+: fix.name ∨
      Text.ofString "remove_end_" <+: fix.name → fix.applied = true := by
    rw [hfixes]
    decide
  have hends : ∀ edit ∈ (closerPass (replaceTags text).1).draft.edits,
      endsInDelimiter ((replaceTags text).1.take edit.offset) = false := by
    rw [hedits]
    decide +kernel
  exact ⟨happlied, hends, hfixes, hedits, htext,
    balanceIssues_round disk [] [] none text happlied hends⟩

/-- An appended closer can take an opener out of a comment. -/
example :
    hiddenSurplus "\\begin\x7bequation\x7d% \\begin\x7bx\x7d" "x" = 1 ∧
      hiddenSurplus "\\begin\x7bequation\x7d% \\begin\x7bx\x7d\n\\end\x7bequation\x7d\n" "x" =
        0 := by
  decide +kernel

end LatexIntegrity.Repair
