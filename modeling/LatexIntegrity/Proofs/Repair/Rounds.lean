import Mathlib.Logic.Function.Iterate
import Mathlib.Tactic.SplitIfs
import LatexIntegrity.Command.Repair
import LatexIntegrity.Proofs.Log.Errors
import LatexIntegrity.Source.FileTree

/-!
# What repeated rounds of repair leave

The text that a round leaves depends on the text that it is given and not on the issues,
so rounds iterate one function on texts.  The issues go along: an imbalance counts for the
text of the last round only, an issue of the log stays until a round comments out the
figure that it names.
-/

namespace LatexIntegrity

theorem kind_of_mem_balanceIssues {text : Text} {issue : Issue}
    (h : issue ∈ balanceIssues text) : issue.kind = .environmentImbalance := by
  rw [balanceIssues, Balance.issues, List.mem_map] at h
  obtain ⟨entry, -, rfl⟩ := h
  rfl

namespace Log

theorem messageKind_ne_imbalance (message : Text) :
    messageKind message ≠ .environmentImbalance := by
  rw [messageKind]
  cases hrule : messageRules.find? (·.applies message) with
  | none => nofun
  | some rule =>
      have hkinds : ∀ rule ∈ messageRules, rule.kind ≠ .environmentImbalance := by decide
      exact hkinds rule (List.mem_of_find?_eq_some hrule)

theorem kind_warning?_ne_imbalance {line : Text} {issue : Issue}
    (h : warning? line = some issue) : issue.kind ≠ .environmentImbalance := by
  unfold warning? at h
  split_ifs at h <;> cases h <;> nofun

theorem kind_ne_imbalance_of_mem_classify {log : Text} {issue : Issue}
    (h : issue ∈ classify log) : issue.kind ≠ .environmentImbalance := by
  rw [classify, errors_eq, List.mem_append, List.mem_map, List.mem_filterMap] at h
  rcases h with ⟨number, -, rfl⟩ | ⟨line, -, hwarning⟩
  · exact messageKind_ne_imbalance _
  · exact kind_warning?_ne_imbalance hwarning

end Log

namespace Repair

/-! ## Open issues -/

def namesMissing (paths : List Text) (issue : Issue) : Bool :=
  issue.kind == .missingFile && paths.any (quotesFigure issue.message)

theorem staysOpen_append (first second : List Text) (issue : Issue) :
    staysOpen (first ++ second) issue = (staysOpen first issue && staysOpen second issue) := by
  simp only [staysOpen, List.any_append]
  cases issue.kind != .environmentImbalance <;> cases issue.kind == .missingFile <;> simp

theorem filter_staysOpen_balanceIssues (paths : List Text) (text : Text) :
    (balanceIssues text).filter (staysOpen paths) = [] := by
  refine List.filter_eq_nil_iff.mpr fun issue hissue => ?_
  simp [staysOpen, kind_of_mem_balanceIssues hissue]

theorem filter_staysOpen_classify (paths : List Text) (log : Text) :
    (Log.classify log).filter (staysOpen paths) =
      (Log.classify log).filter (!namesMissing paths ·) := by
  refine List.filter_congr fun issue hissue => ?_
  have hkind : (issue.kind != .environmentImbalance) = true :=
    bne_iff_ne.mpr (Log.kind_ne_imbalance_of_mem_classify hissue)
  rw [staysOpen, namesMissing, hkind, Bool.true_and]

variable {disk : Disk Id} {options : FigureOptions} {directory : Text}

/-! ## One round -/

section Round

variable (disk options directory) (text : Text)

def figurePass : FigurePass :=
  let balanced := (repairMarkup text).1
  let spans := segment balanced
  commentOutFigures options.marker balanced spans
    (missingFigures disk options directory (figureReferences balanced spans)).run

def commentedPaths : List Text := (figurePass disk options directory text).paths

def appliedCount : Nat :=
  Fix.countApplied ((repairMarkup text).2 ++ (figurePass disk options directory text).fixes)

def repairOnce : Text :=
  if appliedCount disk options directory text = 0 then text
  else (figurePass disk options directory text).draft.apply

def openBehind (issues : Option (List Issue)) : List Issue :=
  (issues.getD (balanceIssues text)).filter
      (staysOpen (commentedPaths disk options directory text)) ++
    balanceIssues (repairOnce disk options directory text)

theorem round_eq (issues : Option (List Issue)) :
    (round disk options directory issues text).run =
      { text := repairOnce disk options directory text
        fixes := (repairMarkup text).2 ++ (figurePass disk options directory text).fixes
        residual := openBehind disk options directory text issues } := rfl

end Round

theorem repairOnce_of_appliedCount {text : Text}
    (h : appliedCount disk options directory text = 0) :
    repairOnce disk options directory text = text := if_pos h

/-! ## Repeated rounds -/

section Rounds

variable (disk options directory)

/--
The texts that the rounds begin with, of which there are at most `bound`: behind a round
that applies no fix there is none.
-/
def executed : Nat → Text → List Text
  | 0, _ => []
  | bound + 1, text =>
      text ::
        if appliedCount disk options directory text = 0 then []
        else executed bound (repairOnce disk options directory text)

def allCommentedPaths (bound : Nat) (text : Text) : List Text :=
  (executed disk options directory bound text).flatMap (commentedPaths disk options directory)

end Rounds

variable {text : Text}

theorem executed_of_settled (h : appliedCount disk options directory text = 0) (bound : Nat) :
    executed disk options directory (bound + 1) text = [text] := by
  rw [executed, if_pos h]

theorem executed_of_applied (h : appliedCount disk options directory text ≠ 0) (bound : Nat) :
    executed disk options directory (bound + 1) text =
      text :: executed disk options directory bound (repairOnce disk options directory text) := by
  rw [executed, if_neg h]

theorem repeatFrom_last {progress : Progress}
    (h : appliedCount disk options directory progress.text = 0) (isFirst : Bool)
    (bound : Nat) :
    ∃ fixes, (repeatFrom disk options directory isFirst progress (bound + 1)).run =
      { progress with
        fixes := fixes
        residual := openBehind disk options directory progress.text progress.issues } := by
  have hnothing :
      (round disk options directory progress.issues progress.text).run.changedNothing = true := by
    rw [round_eq]
    exact beq_iff_eq.mpr h
  exact ⟨_, if_pos hnothing⟩

theorem repeatFrom_next {progress : Progress}
    (h : appliedCount disk options directory progress.text ≠ 0) (isFirst : Bool)
    (bound : Nat) :
    ∃ fixes, (repeatFrom disk options directory isFirst progress (bound + 1)).run =
      (repeatFrom disk options directory false
        ⟨repairOnce disk options directory progress.text,
          some (openBehind disk options directory progress.text progress.issues), fixes,
          openBehind disk options directory progress.text progress.issues⟩ bound).run := by
  have hsomething :
      ¬(round disk options directory progress.issues progress.text).run.changedNothing = true := by
    rw [round_eq]
    exact fun hnothing => h (beq_iff_eq.mp hnothing)
  exact ⟨_, if_neg hsomething⟩

theorem repeatFrom_text (bound : Nat) (isFirst : Bool) (progress : Progress) :
    (repeatFrom disk options directory isFirst progress bound).run.text =
      (repairOnce disk options directory)^[bound] progress.text := by
  induction bound generalizing isFirst progress with
  | zero => rfl
  | succ bound ih =>
      by_cases h : appliedCount disk options directory progress.text = 0
      · obtain ⟨fixes, hlast⟩ := repeatFrom_last h isFirst bound
        rw [hlast, Function.iterate_fixed (repairOnce_of_appliedCount h)]
      · obtain ⟨fixes, hnext⟩ := repeatFrom_next h isFirst bound
        rw [hnext, ih, Function.iterate_succ_apply]

theorem filter_openBehind (issues : Option (List Issue)) (paths : List Text) :
    (openBehind disk options directory text issues).filter (staysOpen paths) =
      (issues.getD (balanceIssues text)).filter
        (staysOpen (commentedPaths disk options directory text ++ paths)) := by
  rw [openBehind, List.filter_append, filter_staysOpen_balanceIssues, List.append_nil,
    List.filter_filter]
  refine List.filter_congr fun issue _ => ?_
  rw [staysOpen_append, Bool.and_comm]

/--
The loop drops the issues that one of its rounds settles, and those alone.  The imbalances
behind them are those of the text that it ends with.
-/
theorem repeatFrom_residual (bound : Nat) (isFirst : Bool) (progress : Progress) :
    (repeatFrom disk options directory isFirst progress (bound + 1)).run.residual =
      (progress.issues.getD (balanceIssues progress.text)).filter
          (staysOpen (allCommentedPaths disk options directory (bound + 1) progress.text)) ++
        balanceIssues ((repairOnce disk options directory)^[bound + 1] progress.text) := by
  induction bound generalizing isFirst progress with
  | zero =>
      have hpaths : allCommentedPaths disk options directory 1 progress.text =
          commentedPaths disk options directory progress.text := by
        simp [allCommentedPaths, executed]
      rw [hpaths]
      by_cases h : appliedCount disk options directory progress.text = 0
      · obtain ⟨fixes, hlast⟩ := repeatFrom_last h isFirst 0
        rw [hlast]
        rfl
      · obtain ⟨fixes, hnext⟩ := repeatFrom_next h isFirst 0
        rw [hnext]
        rfl
  | succ bound ih =>
      by_cases h : appliedCount disk options directory progress.text = 0
      · obtain ⟨fixes, hlast⟩ := repeatFrom_last h isFirst (bound + 1)
        have hpaths : allCommentedPaths disk options directory (bound + 1 + 1) progress.text =
            commentedPaths disk options directory progress.text := by
          simp [allCommentedPaths, executed_of_settled h]
        rw [hlast, hpaths, Function.iterate_fixed (repairOnce_of_appliedCount h), openBehind,
          repairOnce_of_appliedCount h]
      · obtain ⟨fixes, hnext⟩ := repeatFrom_next h isFirst (bound + 1)
        have hpaths : allCommentedPaths disk options directory (bound + 1 + 1) progress.text =
            commentedPaths disk options directory progress.text ++
              allCommentedPaths disk options directory (bound + 1)
                (repairOnce disk options directory progress.text) := by
          rw [allCommentedPaths, executed_of_applied h, List.flatMap_cons]
          rfl
        rw [hnext, ih, hpaths, Function.iterate_succ_apply]
        exact congrArg (· ++ _) (filter_openBehind progress.issues _)

/-! ## The loop as a whole -/

theorem residual_repeatRounds {bound : Nat} (hbound : 0 < bound) (log : Option Text) :
    (repeatRounds disk options directory (log.map Log.classify) bound text).run.residual =
      ((log.map Log.classify).getD []).filter
          (!namesMissing (allCommentedPaths disk options directory bound text) ·) ++
        balanceIssues ((repairOnce disk options directory)^[bound] text) := by
  obtain ⟨bound, rfl⟩ := Nat.exists_eq_succ_of_ne_zero (Nat.ne_of_gt hbound)
  rw [repeatRounds, Nat.succ_eq_add_one, repeatFrom_residual]
  cases log with
  | none => exact congrArg (· ++ _) (filter_staysOpen_balanceIssues _ text)
  | some log => exact congrArg (· ++ _) (filter_staysOpen_classify _ log)

theorem text_repeatRounds (issues : Option (List Issue)) (bound : Nat) :
    (repeatRounds disk options directory issues bound text).run.text =
      (repairOnce disk options directory)^[bound] text :=
  repeatFrom_text bound true (.start text issues)

theorem iterate_repairOnce {bound : Nat}
    (h : ∀ given ∈ executed disk options directory bound text,
      appliedCount disk options directory given = 0) :
    (repairOnce disk options directory)^[bound] text = text := by
  cases bound with
  | zero => rfl
  | succ bound =>
      have hfirst : text ∈ executed disk options directory (bound + 1) text :=
        List.mem_cons_self
      exact Function.iterate_fixed (repairOnce_of_appliedCount (h text hfirst)) _

end Repair

end LatexIntegrity
