import LatexIntegrity.Proofs.Repair.Closers
import LatexIntegrity.Proofs.Repair.Rounds
import LatexIntegrity.Proofs.Text.Parts

/-!
# The missing files that a round settles

An issue of a log about a missing file quotes the name of that file.  A round drops it if
the round comments out a figure whose path the name begins with, and what follows the path
is no directory.
-/

namespace LatexIntegrity

/-! ## Quoted names -/

/-- The name stands between the first backquote of a message and the quote behind it. -/
def Log.Quotes (message name : Text) : Prop :=
  ∃ before behind : Text,
    message = before ++ ('`' : UInt8) :: (name ++ ('\'' : UInt8) :: behind) ∧
      ('`' : UInt8) ∉ before ∧ ('\'' : UInt8) ∉ name

theorem Log.quoted?_eq_some_iff {message name : Text} :
    quoted? message = some name ↔ Quotes message name := by
  simp only [quoted?, Option.bind_eq_bind, Option.pure_def, Option.bind_eq_some_iff,
    Option.some.injEq, Prod.exists, Text.splitFirst?_eq_some_iff]
  constructor
  · rintro ⟨before, _, ⟨rfl, hbefore⟩, _, behind, ⟨rfl, hname⟩, rfl⟩
    exact ⟨before, behind, rfl, hbefore, hname⟩
  · rintro ⟨before, behind, rfl, hbefore, hname⟩
    exact ⟨before, _, ⟨rfl, hbefore⟩, name, behind, ⟨rfl, hname⟩, rfl⟩

namespace Repair

open Log (Quotes quoted?_eq_some_iff)

def HasExtension (path extension name : Text) : Prop :=
  extension ≠ [] ∧ Path.separator ∉ extension ∧ name = path ++ ('.' : UInt8) :: extension

/-- The name is that of a figure, with or without its extension. -/
def NamesFigure (path name : Text) : Prop :=
  name = path ∨ ∃ extension : Text, ('.' : UInt8) ∉ extension ∧ HasExtension path extension name

/-- The name has more behind the path of a figure than one extension. -/
def NamesDotted (path name : Text) : Prop :=
  ∃ extension : Text, ('.' : UInt8) ∈ extension ∧ HasExtension path extension name

variable {message path name : Text}

theorem namesFigure_or_namesDotted_iff : NamesFigure path name ∨ NamesDotted path name ↔
    name = path ∨ ∃ extension, HasExtension path extension name := by
  rw [NamesFigure, NamesDotted, or_assoc, ← exists_or]
  simp only [← or_and_right, Decidable.not_or_self, true_and]

theorem exists_hasExtension_iff : (∃ extension, HasExtension path extension name) ↔
    path.length + 1 < name.length ∧ path ++ ("." : Text) <+: name ∧
      Path.separator ∉ name.drop path.length := by
  have hdot : ("." : Text) = [('.' : UInt8)] := rfl
  rw [hdot]
  constructor
  · rintro ⟨extension, hne, hpart, rfl⟩
    have hlength := List.length_pos_iff.mpr hne
    refine ⟨by simpa using hlength, ⟨extension, by simp⟩, ?_⟩
    rw [List.drop_left]
    exact List.not_mem_cons_of_ne_of_not_mem (by decide) hpart
  · rintro ⟨hlength, ⟨extension, rfl⟩, hpart⟩
    rw [List.append_assoc, List.drop_left] at hpart
    refine ⟨extension, ?_, fun hmem => hpart (List.mem_append_right _ hmem), by simp⟩
    rintro rfl
    simp at hlength

theorem quotesFigure_iff : quotesFigure message path = true ↔
    ∃ name, Quotes message name ∧ (NamesFigure path name ∨ NamesDotted path name) := by
  simp only [← quoted?_eq_some_iff, namesFigure_or_namesDotted_iff, exists_hasExtension_iff]
  rw [quotesFigure]
  cases Log.quoted? message with
  | none => simp
  | some name => simp [and_assoc]

/-! ## The figures that a round comments out -/

theorem FigurePass.commented_injective : Function.Injective FigurePass.commented :=
  fun _ _ h => List.append_cancel_left (congrArg Fix.description h)

theorem FigurePass.filter_applied_commentOut {marker : Text} {pass : FigurePass}
    (h : pass.fixes.filter (·.applied) = pass.paths.map commented) (figure : FigureReference) :
    (pass.commentOut marker figure).fixes.filter (·.applied) =
      (pass.commentOut marker figure).paths.map commented := by
  have hrecord (path : Text) :
      (pass.record path).fixes.filter (·.applied) = (pass.record path).paths.map commented := by
    simp [record, h, commented]
  have hleave (path reason : Text) :
      (pass.leave path reason).fixes.filter (·.applied) =
        (pass.leave path reason).paths.map commented := by
    simp [leave, h, leftInPlace]
  simp only [commentOut]
  split_ifs
  · exact h
  · exact hrecord _
  · exact hleave _ _
  · split
    · exact hleave _ _
    · exact hrecord _

theorem filter_applied_commentOutFigures (marker text : Text) (spans : List Span)
    (missing : List FigureReference) :
    (commentOutFigures marker text spans missing).fixes.filter (·.applied) =
      (commentOutFigures marker text spans missing).paths.map FigurePass.commented := by
  induction missing using List.reverseRecOn with
  | nil => rfl
  | append_singleton missing figure ih =>
      unfold commentOutFigures at ih ⊢
      rw [List.foldl_concat]
      exact FigurePass.filter_applied_commentOut ih figure

theorem name_ne_figureFix {text : Text} {fix : Fix} (h : fix ∈ (repairMarkup text).2) :
    fix.name ≠ FigurePass.figureFix := by
  rcases List.mem_append.mp h with htag | hcloser
  · obtain ⟨rule, hrule, hfix⟩ := List.mem_filterMap.mp htag
    have hname : fix.name = rule.name := by
      rw [TagRule.fix?] at hfix
      split_ifs at hfix
      cases hfix
      rfl
    have hrules : ∀ rule ∈ tagRules, rule.name ≠ FigurePass.figureFix := by decide
    exact hname ▸ hrules rule hrule
  · have hnamed := (settles_removals (replaceTags text).1).named fix hcloser
    rintro heq
    rw [heq] at hnamed
    revert hnamed
    decide

variable {disk : Disk Id} {options : FigureOptions} {directory text : Text}

/-- The paths that decide about the issues are those that the fixes tell. -/
theorem mem_commentedPaths_iff :
    path ∈ commentedPaths disk options directory text ↔ FigurePass.commented path ∈
      (repairMarkup text).2 ++ (figurePass disk options directory text).fixes := by
  have hmarkup : FigurePass.commented path ∉ (repairMarkup text).2 :=
    fun hmem => name_ne_figureFix hmem rfl
  have hpaths : (figurePass disk options directory text).fixes.filter (·.applied) =
      (commentedPaths disk options directory text).map FigurePass.commented :=
    filter_applied_commentOutFigures ..
  calc path ∈ commentedPaths disk options directory text
    _ ↔ FigurePass.commented path ∈
          (figurePass disk options directory text).fixes.filter (·.applied) := by
      rw [hpaths, List.mem_map_of_injective FigurePass.commented_injective]
    _ ↔ FigurePass.commented path ∈ (figurePass disk options directory text).fixes := by
      simp [FigurePass.commented]
    _ ↔ _ := by rw [List.mem_append, or_iff_right hmarkup]

/-! ## The issues that a round drops -/

/-- The issue is about a file under a name that stands for a figure commented out by a fix. -/
def IsSettled (stands : Text → Text → Prop) (fixes : List Fix) (issue : Issue) : Prop :=
  issue.kind = .missingFile ∧ ∃ name, Quotes issue.message name ∧
    ∃ path, FigurePass.commented path ∈ fixes ∧ stands path name

theorem namesMissing_iff {fixes : List Fix} {paths : List Text} {issue : Issue}
    (hpaths : ∀ path, path ∈ paths ↔ FigurePass.commented path ∈ fixes) :
    namesMissing paths issue = true ↔
      IsSettled NamesFigure fixes issue ∨ IsSettled NamesDotted fixes issue := by
  rw [namesMissing, Bool.and_eq_true, beq_iff_eq, List.any_eq_true, IsSettled, IsSettled,
    ← and_or_left, ← exists_or]
  simp only [quotesFigure_iff, hpaths, ← and_or_left, ← exists_or]
  refine and_congr_right fun _ => ⟨?_, ?_⟩
  · rintro ⟨path, hfix, name, hquotes, hstands⟩
    exact ⟨name, hquotes, path, hfix, hstands⟩
  · rintro ⟨name, hquotes, path, hfix, hstands⟩
    exact ⟨path, hfix, name, hquotes, hstands⟩

/--
A round that is given issues goes on with those that are no imbalances and that it does not
settle, in their order, and finds the imbalances anew.  It settles an issue about a missing
file whose quoted name is that of a figure that it comments out, with or without an
extension.  It also settles one about a file whose name has several dots behind that path,
which may be another figure.
-/
theorem residual_round (disk : Disk Id) (options : FigureOptions) (directory text : Text)
    (issues : List Issue) :
    let report := (round disk options directory (some issues) text).run
    ∃ settled : Issue → Bool,
      (∀ issue, settled issue = true ↔
        IsSettled NamesFigure report.fixes issue ∨ IsSettled NamesDotted report.fixes issue) ∧
      report.residual =
        issues.filter (fun issue => issue.kind != .environmentImbalance && !settled issue) ++
          balanceIssues report.text ∧
      ∀ issue ∈ balanceIssues report.text, issue.kind = .environmentImbalance := by
  intro report
  exact ⟨namesMissing (commentedPaths disk options directory text),
    fun issue => namesMissing_iff fun _ => mem_commentedPaths_iff, rfl,
    fun issue hissue => kind_of_mem_balanceIssues hissue⟩

/-- With `fig` the issue about the file of another figure, `fig.old`, is dropped. -/
example :
    let tree : FileTree := { files := [] }
    let issue : Issue :=
      { kind := .missingFile, message := "LaTeX Error: File `fig.old.png' not found." }
    (round tree.disk {} [] (some [issue]) "\\includegraphics\x7bfig\x7d\n").run.residual = [] := by
  decide +kernel

end Repair

end LatexIntegrity
