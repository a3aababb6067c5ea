import Mathlib.Data.List.Induction
import LatexIntegrity.Proofs.Repair.Residual

/-!
# Which fixes are listed

The command `fix` merges the fixes of its rounds into one list.  A round that applies a fix
is in it as a whole, and so is the first one.  A later round that applies nothing is left
out, so that the list lacks a fix left undone that this round is the first to find.
-/

namespace LatexIntegrity

namespace Fix

variable {listed later : List Fix} {fix other : Fix}

theorem mem_insert : other ∈ insert listed fix ↔ other ∈ listed ∨ other = fix := by
  unfold insert
  split
  · next hrepeat =>
      rw [isRepeat, Bool.and_eq_true, List.contains_iff_mem] at hrepeat
      constructor
      · exact .inl
      · rintro (hother | rfl)
        · exact hother
        · exact hrepeat.2
  · simp

theorem mem_merge : fix ∈ merge listed later ↔ fix ∈ listed ∨ fix ∈ later := by
  unfold merge
  induction later generalizing listed with
  | nil => simp
  | cons first rest ih => rw [List.foldl_cons, ih, mem_insert, List.mem_cons, or_assoc]

theorem merge_eq_self_iff (h : ∀ fix ∈ later, fix.applied = false) :
    merge listed later = listed ↔ ∀ fix ∈ later, fix ∈ listed := by
  constructor
  · intro hsame fix hfix
    rw [← hsame]
    exact mem_merge.mpr (.inr hfix)
  · intro hlisted
    unfold merge
    induction later with
    | nil => rfl
    | cons first rest ih =>
        obtain ⟨hfirst, hrest⟩ := List.forall_mem_cons.mp h
        obtain ⟨hmem, hlisted⟩ := List.forall_mem_cons.mp hlisted
        have hinsert : insert listed first = listed := by simp [insert, isRepeat, hfirst, hmem]
        rw [List.foldl_cons, hinsert]
        exact ih hrest hlisted

end Fix

namespace Repair

variable {disk : Disk Id} {options : FigureOptions} {directory : Text}

/-! ## The list of a loop -/

section Rounds

variable (disk options directory)

def roundFixes (text : Text) : List Fix :=
  (repairMarkup text).2 ++ (figurePass disk options directory text).fixes

def mergedFixes (texts : List Text) : List Fix :=
  (texts.map (roundFixes disk options directory)).foldl Fix.merge []

def appliesFix (text : Text) : Bool := appliedCount disk options directory text != 0

/-- Of the texts that rounds begin with, those of the rounds whose fixes are listed. -/
def listedRounds : List Text → List Text
  | [] => []
  | first :: later => first :: later.filter (appliesFix disk options directory)

end Rounds

theorem repeatFrom_fixes_last {progress : Progress}
    (h : appliedCount disk options directory progress.text = 0) (isFirst : Bool)
    (bound : Nat) :
    (repeatFrom disk options directory isFirst progress (bound + 1)).run.fixes =
      if isFirst then
        Fix.merge progress.fixes (roundFixes disk options directory progress.text)
      else progress.fixes := by
  have hnothing :
      (round disk options directory progress.issues progress.text).run.changedNothing = true := by
    rw [round_eq]
    exact beq_iff_eq.mpr h
  have hrun : (repeatFrom disk options directory isFirst progress (bound + 1)).run.fixes =
      if isFirst || !(round disk options directory progress.issues
          progress.text).run.changedNothing then
        Fix.merge progress.fixes (roundFixes disk options directory progress.text)
      else progress.fixes := congrArg Progress.fixes (if_pos hnothing)
  rw [hrun, hnothing, Bool.not_true, Bool.or_false]

theorem repeatFrom_fixes_next {progress : Progress}
    (h : appliedCount disk options directory progress.text ≠ 0) (isFirst : Bool)
    (bound : Nat) :
    (repeatFrom disk options directory isFirst progress (bound + 1)).run =
      (repeatFrom disk options directory false
        ⟨repairOnce disk options directory progress.text,
          some (openBehind disk options directory progress.text progress.issues),
          Fix.merge progress.fixes (roundFixes disk options directory progress.text),
          openBehind disk options directory progress.text progress.issues⟩ bound).run := by
  have hsomething :
      ¬(round disk options directory progress.issues progress.text).run.changedNothing = true := by
    rw [round_eq]
    exact fun hnothing => h (beq_iff_eq.mp hnothing)
  have hfixes : (if isFirst || !(round disk options directory progress.issues
        progress.text).run.changedNothing then
      Fix.merge progress.fixes (roundFixes disk options directory progress.text)
      else progress.fixes) =
        Fix.merge progress.fixes (roundFixes disk options directory progress.text) := by
    rw [Bool.not_eq_true] at hsomething
    rw [hsomething, Bool.not_false, Bool.or_true, if_pos rfl]
  rw [← hfixes]
  exact if_neg hsomething

theorem repeatFrom_fixes (bound : Nat) (progress : Progress) :
    (repeatFrom disk options directory false progress bound).run.fixes =
      (((executed disk options directory bound progress.text).filter
        (appliesFix disk options directory)).map
          (roundFixes disk options directory)).foldl Fix.merge progress.fixes := by
  induction bound generalizing progress with
  | zero => rfl
  | succ bound ih =>
      by_cases h : appliedCount disk options directory progress.text = 0
      · rw [repeatFrom_fixes_last h, executed_of_settled h]
        simp [appliesFix, h]
      · rw [repeatFrom_fixes_next h, ih, executed_of_applied h, List.filter_cons_of_pos,
          List.map_cons, List.foldl_cons]
        simpa [appliesFix] using h

theorem fixes_repeatRounds (issues : Option (List Issue)) (bound : Nat) (text : Text) :
    (repeatRounds disk options directory issues bound text).run.fixes =
      mergedFixes disk options directory (listedRounds disk options directory
        (executed disk options directory bound text)) := by
  cases bound with
  | zero => rfl
  | succ bound =>
      have hlast := @repeatFrom_fixes_last disk options directory (.start text issues)
      have hnext := @repeatFrom_fixes_next disk options directory (.start text issues)
      by_cases h : appliedCount disk options directory text = 0
      · rw [repeatRounds, hlast h, executed_of_settled h]
        simp [Progress.start, mergedFixes, listedRounds]
      · rw [repeatRounds, hnext h, repeatFrom_fixes, executed_of_applied h]
        simp [Progress.start, mergedFixes, listedRounds]

/-! ## What the list lacks -/

theorem appliedCount_of_mem_dropLast {bound : Nat} {text given : Text}
    (h : given ∈ (executed disk options directory bound text).dropLast) :
    appliedCount disk options directory given ≠ 0 := by
  induction bound generalizing text with
  | zero => simp [executed] at h
  | succ bound ih =>
      by_cases happlied : appliedCount disk options directory text = 0
      · simp [executed_of_settled happlied] at h
      · rw [executed_of_applied happlied] at h
        cases hlater : executed disk options directory bound
            (repairOnce disk options directory text) with
        | nil => simp [hlater] at h
        | cons second others =>
            rw [hlater, List.dropLast_cons_of_ne_nil (List.cons_ne_nil _ _), ← hlater] at h
            rcases List.mem_cons.mp h with rfl | h
            · exact happlied
            · exact ih h

theorem mem_mergedFixes {texts : List Text} {fix : Fix} :
    fix ∈ mergedFixes disk options directory texts ↔
      ∃ given ∈ texts, fix ∈ roundFixes disk options directory given := by
  unfold mergedFixes
  induction texts using List.reverseRecOn with
  | nil => simp
  | append_singleton texts last ih =>
      rw [List.map_append, List.foldl_append, List.map_singleton, List.foldl_cons, List.foldl_nil,
        Fix.mem_merge, ih]
      simp [or_and_right, exists_or]

theorem mergedFixes_concat (texts : List Text) (last : Text) :
    mergedFixes disk options directory (texts ++ [last]) =
      Fix.merge (mergedFixes disk options directory texts)
        (roundFixes disk options directory last) := by
  simp [mergedFixes]

theorem listedRounds_concat {first last : Text} {texts : List Text}
    (h : ∀ given ∈ texts, appliedCount disk options directory given ≠ 0) :
    listedRounds disk options directory (first :: (texts ++ [last])) =
      first :: texts ++ (if appliesFix disk options directory last then [last] else []) := by
  have htexts : texts.filter (appliesFix disk options directory) = texts := by
    rw [List.filter_eq_self]
    exact fun given hgiven => bne_iff_ne.mpr (h given hgiven)
  rw [listedRounds, List.filter_append, htexts, List.filter_cons, List.filter_nil,
    List.cons_append]

theorem mergedFixes_listedRounds_eq_iff {texts : List Text}
    (h : ∀ given ∈ texts.dropLast, appliedCount disk options directory given ≠ 0) :
    mergedFixes disk options directory (listedRounds disk options directory texts) =
        mergedFixes disk options directory texts ↔
      ∀ last ∈ texts.getLast?, ∀ fix ∈ roundFixes disk options directory last,
        fix ∈ mergedFixes disk options directory (listedRounds disk options directory texts) := by
  have hall : ∀ {texts : List Text},
      listedRounds disk options directory texts = texts →
      (mergedFixes disk options directory (listedRounds disk options directory texts) =
          mergedFixes disk options directory texts ↔
        ∀ last ∈ texts.getLast?, ∀ fix ∈ roundFixes disk options directory last,
          fix ∈ mergedFixes disk options directory
            (listedRounds disk options directory texts)) := by
    intro texts hlisted
    rw [hlisted]
    exact iff_of_true rfl fun last hlast fix hfix =>
      mem_mergedFixes.mpr ⟨last, List.mem_of_getLast? hlast, hfix⟩
  cases texts with
  | nil => exact hall rfl
  | cons first later =>
      rcases later.eq_nil_or_concat with rfl | ⟨middle, last, rfl⟩
      · exact hall rfl
      · rw [List.concat_eq_append] at h ⊢
        rw [← List.cons_append, List.dropLast_concat, List.forall_mem_cons] at h
        have hlisted := @listedRounds_concat disk options directory first last middle h.2
        -- A last round that applies a fix is listed like the others.
        cases hsilent : appliesFix disk options directory last with
        | true =>
            rw [hsilent, if_pos rfl] at hlisted
            exact hall hlisted
        | false =>
            rw [hsilent, if_neg Bool.false_ne_true, List.append_nil] at hlisted
            have hundone : ∀ fix ∈ roundFixes disk options directory last,
                fix.applied = false := by
              have hcount : Fix.countApplied (roundFixes disk options directory last) = 0 :=
                bne_eq_false_iff_eq.mp hsilent
              simpa [Fix.countApplied, List.countP_eq_zero] using hcount
            rw [hlisted, ← List.cons_append, mergedFixes_concat, eq_comm,
              Fix.merge_eq_self_iff hundone, List.getLast?_concat]
            exact ⟨fun hfound _ hlast => Option.some.inj hlast ▸ hfound, fun hfound =>
              hfound last rfl⟩

end Repair

namespace Command

variable {tree : FileTree} {settings : Settings} {path : Text} {arguments : List Text}
variable {options : FixOptions} {registry registry' : Registry} {document : Document}
variable {issues : Option (List Issue)}

/--
The list that `fix` prints has the fixes of the first round and of every round that applies
one.  It is the list of all rounds exactly if the last round finds nothing that is not
listed.
-/
theorem fix_lists_rounds
    (hoptions : FixOptions.read { rounds := settings.maxRounds } arguments = .ok options)
    (hdocument : (readDocument tree.disk .empty path .document).run = .ok (registry, document))
    (hlog : (logIssues tree.disk registry (logPath tree.disk options document.path).run).run =
      .ok (registry', issues)) :
    let directory := tree.disk.directoryOf document.path
    let progress := (Repair.repeatRounds tree.disk settings.figures directory issues
      options.rounds document.text).run
    let rounds := Repair.executed tree.disk settings.figures directory options.rounds
      document.text
    let found := Repair.roundFixes tree.disk settings.figures directory
    let listed := Repair.mergedFixes tree.disk settings.figures directory
      (Repair.listedRounds tree.disk settings.figures directory rounds)
    let outcome := (fix tree.disk settings (path :: arguments)).run
    (options.preview = true → outcome.out = renderPreview listed) ∧
    (options.preview = false → outcome.err = renderLogIssues (issues.getD []) ++
      Issue.renderAll registry' document.file (some { document with text := progress.text })
        progress.residual ++ (renderApplied listed ++ deliveryNote tree options.output)) ∧
    (∀ given ∈ rounds, (rounds.head? = some given ∨
        Repair.appliedCount tree.disk settings.figures directory given ≠ 0) →
      ∀ fix ∈ found given, fix ∈ listed) ∧
    (listed = rounds.foldl (fun merged given => Fix.merge merged (found given)) [] ↔
      ∀ last ∈ rounds.getLast?, ∀ fix ∈ found last, fix ∈ listed) := by
  intro directory progress rounds found listed outcome
  have hfixes : progress.fixes = listed := Repair.fixes_repeatRounds _ _ _
  have hrun : outcome = (reportRepair tree.disk options registry' document
      (renderLogIssues (issues.getD [])) progress).run :=
    congrArg Id.run (fix_eq hoptions hdocument hlog)
  refine ⟨fun hpreview => ?_, fun hpreview => ?_, ?_, ?_⟩
  · rw [hrun, reportRepair_preview hpreview, hfixes]
  · rw [hrun, reportRepair_written hpreview, hfixes]
  · intro given hgiven hround fix hfix
    refine Repair.mem_mergedFixes.mpr ⟨given, ?_, hfix⟩
    cases hrounds : rounds with
    | nil => simp [hrounds] at hgiven
    | cons first later =>
        rw [hrounds] at hgiven hround
        rw [Repair.listedRounds, List.mem_cons, List.mem_filter]
        rcases List.mem_cons.mp hgiven with rfl | hlater
        · exact .inl rfl
        · exact hround.imp (fun hfirst => (Option.some.inj hfirst).symm)
            fun happlied => ⟨hlater, bne_iff_ne.mpr happlied⟩
  · -- Only the last round may apply nothing, so its fixes are the only ones in question.
    rw [← List.foldl_map]
    exact Repair.mergedFixes_listedRounds_eq_iff fun given =>
      Repair.appliedCount_of_mem_dropLast

/-- Each of two rounds finds the figure that is left in place, and it is listed once. -/
theorem fix_lists_rounds_figure :
    let text : Text :=
      "\\begin\x7bfigure\x7d\\includegraphics\x7bgone\x7d\\end\x7bfigure\x7d\n\\end\x7ba\x7d\n"
    let tree : FileTree := { files := [(["a.tex"], text)] }
    let rounds := Repair.executed tree.disk {} (tree.disk.directoryOf "a.tex") 3
      (Utf8.repair text)
    let found := Repair.roundFixes tree.disk {} (tree.disk.directoryOf "a.tex")
    (fix tree.disk {} ["a.tex", "--dry-run"]).run.out =
        renderPreview (rounds.foldl (fun merged given => Fix.merge merged (found given)) []) ∧
      rounds.length = 2 := by
  intro text tree rounds found
  let options : FixOptions := { preview := true, rounds := 3 }
  let registry := (Registry.empty.add "a.tex" .document).1
  obtain ⟨hout, -, -, hlist⟩ := @fix_lists_rounds tree {} "a.tex" ["--dry-run"] options registry
    registry ⟨Utf8.repair text, "a.tex", 1⟩ none rfl rfl rfl
  refine ⟨?_, by decide +kernel⟩
  rw [hout rfl]
  exact congrArg renderPreview (hlist.mpr (by decide +kernel))

/-- The second round finds the closer between the brackets, applies nothing and is left out. -/
example :
    let text : Text :=
      "\\includegraphics\x7bg\x7d $\n% \\begin\x7ba\x7d\n$\n\\[\\end\x7ba\x7d\\]\n"
    let disk := ({} : FileTree).disk
    (Repair.repeatRounds disk {} [] none 3 text).run.fixes.map Fix.name =
        [("comment_missing_figure" : Text)] ∧
      ((Repair.executed disk {} [] 3 text).map fun given =>
        (Repair.roundFixes disk {} [] given).map Fix.name) =
        [[("comment_missing_figure" : Text)], [("remove_end_a" : Text)]] := by
  decide +kernel

end Command

end LatexIntegrity
