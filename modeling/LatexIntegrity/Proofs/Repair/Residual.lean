import LatexIntegrity.Proofs.Repair.Rounds

/-!
# What the command `fix` reports

The issues that `fix` lists, and its exit status, are about the text that it writes, however
many rounds it takes.
-/

namespace LatexIntegrity.Command

variable {tree : FileTree} {settings : Settings} {path : Text} {arguments : List Text}
variable {options : FixOptions} {registry registry' : Registry} {document : Document}
variable {issues : Option (List Issue)}

theorem issues_of_logIssues {logName : Text}
    (h : (logIssues tree.disk registry logName).run = .ok (registry', issues)) :
    ∃ log : Option Text, issues = log.map Log.classify := by
  by_cases hname : logName.isEmpty
  · rw [logIssues, if_pos hname] at h
    cases h
    exact ⟨none, rfl⟩
  · rw [logIssues, if_neg hname] at h
    cases hread : readText tree.disk registry logName .log with
    | error error =>
        simp only [Id.run, bind, hread] at h
        cases h
    | ok loaded =>
        simp only [Id.run, bind, hread] at h
        cases h
        exact ⟨some loaded.2.text, rfl⟩

def deliveryNote (tree : FileTree) (output : Text) : Text :=
  if output.isEmpty then []
  else if (tree.target? output).isSome then "Fixed file written to " ++ output ++ "\n"
  else (Diagnostic.failure ("unable to write " ++ output)).render .empty

theorem fix_eq
    (hoptions : FixOptions.read { rounds := settings.maxRounds } arguments = .ok options)
    (hdocument : (readDocument tree.disk .empty path .document).run = .ok (registry, document))
    (hlog : (logIssues tree.disk registry (logPath tree.disk options document.path).run).run =
      .ok (registry', issues)) :
    fix tree.disk settings (path :: arguments) =
      reportRepair tree.disk options registry' document (renderLogIssues (issues.getD []))
        (Repair.repeatRounds tree.disk settings.figures (tree.disk.directoryOf document.path)
          issues options.rounds document.text).run := by
  have hrepair : repairDocument tree.disk settings options registry document =
      reportRepair tree.disk options registry' document (renderLogIssues (issues.getD []))
        (Repair.repeatRounds tree.disk settings.figures (tree.disk.directoryOf document.path)
          issues options.rounds document.text).run := by
    simp only [Id.run] at hlog
    simp only [repairDocument, Id.run, bind, hlog]
  simp only [Id.run] at hdocument
  simp only [fix, withOptions, withDocument, hoptions, bind, hdocument, hrepair]

theorem reportRepair_preview (hpreview : options.preview = true) (listing : Text)
    (progress : Repair.Progress) :
    (reportRepair tree.disk options registry document listing progress).run =
      { status := Outcome.statusOf (!progress.residual.any Issue.isBlocking)
        out := renderPreview progress.fixes
        err := listing ++ Issue.renderAll registry document.file
          (some { document with text := progress.text }) progress.residual } := by
  rw [reportRepair, if_pos hpreview]
  rfl

theorem reportRepair_written (hpreview : options.preview = false) (listing : Text)
    (progress : Repair.Progress) :
    (reportRepair tree.disk options registry document listing progress).run =
      { status :=
          if options.output.isEmpty || (tree.target? options.output).isSome then
            Outcome.statusOf (!progress.residual.any Issue.isBlocking)
          else 1
        out := if options.output.isEmpty then progress.text else []
        err := listing ++ Issue.renderAll registry document.file
          (some { document with text := progress.text }) progress.residual ++
            (renderApplied progress.fixes ++ deliveryNote tree options.output)
        written :=
          if !options.output.isEmpty && (tree.target? options.output).isSome then
            [(options.output, progress.text)]
          else [] } := by
  rw [reportRepair, if_neg (by rw [hpreview]; exact Bool.false_ne_true), Outcome.deliver,
    deliveryNote]
  have hwrite : tree.disk.write options.output progress.text =
      if (tree.target? options.output).isSome then .written else .refused := rfl
  simp only [Id.run, bind, pure, hwrite]
  cases options.output.isEmpty <;> cases (tree.target? options.output).isSome <;>
    simp [Outcome.undelivered]

theorem any_isBlocking_eq_false (issues : List Issue) :
    issues.any Issue.isBlocking = false ↔ ∀ issue ∈ issues, issue.severity = .note := by
  simp [Issue.isBlocking]

/--
The issues that `fix` prints are about the text that it writes: those of the log that no
round has settled by commenting out the figure that they name, and behind them the
imbalances of the text.  Rounds that apply no fix leave the document as it is.  If the
result can be written, the exit status says whether an issue is more than a note.
-/
theorem fix_reports_residual
    (hoptions : FixOptions.read { rounds := settings.maxRounds } arguments = .ok options)
    (hrounds : 0 < options.rounds)
    (hdocument : (readDocument tree.disk .empty path .document).run = .ok (registry, document))
    (hlog : (logIssues tree.disk registry (logPath tree.disk options document.path).run).run =
      .ok (registry', issues)) :
    let directory := tree.disk.directoryOf document.path
    let progress := (Repair.repeatRounds tree.disk settings.figures directory issues
      options.rounds document.text).run
    let executed := Repair.executed tree.disk settings.figures directory options.rounds
      document.text
    let settled := executed.flatMap (Repair.commentedPaths tree.disk settings.figures directory)
    let residual := (issues.getD []).filter (!Repair.namesMissing settled ·) ++
      balanceIssues progress.text
    let outcome := (fix tree.disk settings (path :: arguments)).run
    outcome.err = renderLogIssues (issues.getD []) ++
        Issue.renderAll registry' document.file (some { document with text := progress.text })
          residual ++
        (if options.preview then []
          else renderApplied progress.fixes ++ deliveryNote tree options.output) ∧
      (options.preview = false →
        (options.output = [] → outcome.out = progress.text) ∧
        (options.output ≠ [] → (tree.target? options.output).isSome →
          outcome.written = [(options.output, progress.text)])) ∧
      ((∀ given ∈ executed,
          Repair.appliedCount tree.disk settings.figures directory given = 0) →
        progress.text = document.text) ∧
      (options.preview ∨ options.output = [] ∨ (tree.target? options.output).isSome →
        (outcome.status = 0 ↔ ∀ issue ∈ residual, issue.severity = .note)) := by
  intro directory progress executed settled residual outcome
  obtain ⟨log, rfl⟩ := issues_of_logIssues hlog
  have htext : progress.text =
      (Repair.repairOnce tree.disk settings.figures directory)^[options.rounds]
        document.text := Repair.text_repeatRounds _ _
  have hresidual : progress.residual = residual := by
    rw [Repair.residual_repeatRounds hrounds, ← htext]
    rfl
  have hrun : outcome = (reportRepair tree.disk options registry' document
      (renderLogIssues ((log.map Log.classify).getD [])) progress).run :=
    congrArg Id.run (fix_eq hoptions hdocument hlog)
  have hstatus : Outcome.statusOf (!progress.residual.any Issue.isBlocking) = 0 ↔
      ∀ issue ∈ residual, issue.severity = .note := by
    rw [← any_isBlocking_eq_false, hresidual]
    cases residual.any Issue.isBlocking <;> decide
  have hunchanged : (∀ given ∈ executed,
      Repair.appliedCount tree.disk settings.figures directory given = 0) →
        progress.text = document.text :=
    fun hnothing => htext.trans (Repair.iterate_repairOnce hnothing)
  -- A preview delivers nothing, so only a written result can change the status.
  cases hpreview : options.preview with
  | true =>
      rw [reportRepair_preview hpreview, hresidual] at hrun
      refine ⟨?_, nofun, hunchanged, fun _ => ?_⟩
      · rw [hrun, if_pos rfl, List.append_nil]
      · rw [hrun, ← hstatus, hresidual]
  | false =>
      rw [reportRepair_written hpreview, hresidual] at hrun
      refine ⟨?_, fun _ => ⟨fun houtput => ?_, fun houtput hwritable => ?_⟩, hunchanged,
        fun hdelivered => ?_⟩
      · rw [hrun, if_neg Bool.false_ne_true]
      · rw [hrun, houtput]
        rfl
      · have hempty : options.output.isEmpty = false := List.isEmpty_eq_false_iff.mpr houtput
        simp [hrun, hempty, hwritable]
      · have hwritable :
            (options.output.isEmpty || (tree.target? options.output).isSome) = true := by
          simpa [List.isEmpty_iff] using hdelivered
        rw [hrun, ← hstatus, if_pos hwritable, hresidual]

/-- Two rounds that comment out a figure and take a delimiter away, and one error that stays. -/
theorem fix_reports_residual_figure :
    let text : Text := "\\includegraphics\x7bfig\x7d\n\\end\x7ba\x7d\n"
    let log : Text := "! LaTeX Error: File `fig.png' not found.\n! Undefined control sequence.\n"
    let tree : FileTree := { files := [(["a.tex"], text), (["a.log"], log)] }
    let outcome := (fix tree.disk {} ["a.tex", "--log", "a.log", "-o", "b.tex"]).run
    let repaired : Text := "% FIXME: missing file - \\includegraphics\x7bfig\x7d\n\n"
    outcome.written = [(("b.tex" : Text), repaired)] ∧ outcome.status ≠ 0 := by
  intro text log tree outcome repaired
  let options : FixOptions := { output := "b.tex", log := "a.log", rounds := 3 }
  let registry := (Registry.empty.add "a.tex" .document).1
  let issues := some (Log.classify (Utf8.repair log))
  obtain ⟨-, hwritten, -, hstatus⟩ := @fix_reports_residual tree {} "a.tex"
    ["--log", "a.log", "-o", "b.tex"] options registry (registry.add "a.log" .log).1
    ⟨Utf8.repair text, "a.tex", 1⟩ issues rfl (by decide) rfl rfl
  have hwritable : (tree.target? options.output).isSome := by decide +kernel
  have htext : (Repair.repeatRounds tree.disk {} (tree.disk.directoryOf "a.tex") issues 3
      (Utf8.repair text)).run.text = repaired := by
    decide +kernel
  refine ⟨?_, ?_⟩
  · rw [← htext]
    exact (hwritten rfl).2 (by decide) hwritable
  · rw [ne_eq, hstatus (.inr (.inr hwritable))]
    decide +kernel

end LatexIntegrity.Command
