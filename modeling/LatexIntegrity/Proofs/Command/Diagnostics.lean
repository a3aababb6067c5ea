import LatexIntegrity.Command.Run
import LatexIntegrity.Proofs.Region.FirstMatch
import LatexIntegrity.Proofs.Repair.Rounds
import LatexIntegrity.Proofs.Report.Messages

/-!
# Diagnostics are lines

What a command writes to the error stream is a list of messages, some of which are
diagnostics.  Each diagnostic is printed as one line, so that its reader may take the
output line by line.  The names of input files are the exception: they come from the
document with their line feeds.
-/

namespace LatexIntegrity

open Text (IsUnbroken IsPrintedLine)

/-! ## One diagnostic -/

namespace Diagnostic

variable {registry : Registry}

theorem isUnbroken_renderNumber (number : UInt32) : IsUnbroken (renderNumber number) := by
  unfold renderNumber
  split
  · exact Text.isUnbroken_nil
  · exact Text.isUnbroken_append.mpr ⟨by decide, Decimal.isUnbroken_render _⟩

theorem isUnbroken_renderPlace (hregistry : registry.IsUnbroken) (location : Location) :
    IsUnbroken (renderPlace registry location) := by
  have hposition : IsUnbroken (renderPosition location) := by
    unfold renderPosition
    split
    · exact Text.isUnbroken_nil
    · exact Text.isUnbroken_append.mpr ⟨isUnbroken_renderNumber _, isUnbroken_renderNumber _⟩
  unfold renderPlace
  dsimp only
  split
  · exact Text.isUnbroken_nil
  · rw [Text.isUnbroken_append, Text.isUnbroken_append]
    exact ⟨⟨hregistry.path _, hposition⟩, by decide⟩

theorem isPrintedLine_render (hregistry : registry.IsUnbroken) {diagnostic : Diagnostic}
    (hcode : diagnostic.code.IsUnbroken) (hmessage : diagnostic.message.IsUnbroken) :
    IsPrintedLine (diagnostic.render registry) := by
  have hlabel : ∀ severity : Severity, severity.label.IsUnbroken := by
    rintro (_ | _ | _) <;> decide
  have hcolon : IsUnbroken ": " := by decide
  have hrendered : IsUnbroken (renderCode diagnostic.code) := by
    unfold renderCode
    split
    · exact Text.isUnbroken_nil
    · rw [Text.isUnbroken_append, Text.isUnbroken_append]
      exact ⟨⟨by decide, hcode⟩, by decide⟩
  refine ⟨_, rfl, ?_⟩
  simp only [Text.isUnbroken_append]
  exact ⟨⟨⟨⟨isUnbroken_renderPlace hregistry _, hlabel _⟩, hcolon⟩, hrendered⟩, hmessage⟩

end Diagnostic

theorem IssueKind.isUnbroken_label (kind : IssueKind) : kind.label.IsUnbroken := by
  cases kind <;> decide

namespace Command

/-! ## Messages -/

inductive Message where
  | finding (registry : Registry) (diagnostic : Diagnostic)
  | words (text : Text)

namespace Message

def render : Message → Text
  | .finding registry diagnostic => diagnostic.render registry
  | .words text => text

def failure (text : Text) : Message := .finding .empty (.failure text)

def ofIssue (registry : Registry) (file : UInt32) (document : Option Document) (issue : Issue) :
    Message :=
  .finding registry (issue.toDiagnostic file document)

/-- A diagnostic is printed as one line; nothing is said of other words. -/
def IsLine : Message → Prop
  | .finding registry diagnostic => IsPrintedLine (diagnostic.render registry)
  | .words _ => True

theorem isLine_failure {text : Text} (h : text.IsUnbroken) : (failure text).IsLine :=
  Diagnostic.isPrintedLine_render Registry.isUnbroken_empty Text.isUnbroken_nil h

theorem isLine_ofIssue {registry : Registry} (hregistry : registry.IsUnbroken) (file : UInt32)
    (document : Option Document) {issue : Issue} (h : issue.message.IsUnbroken) :
    (ofIssue registry file document issue).IsLine :=
  Diagnostic.isPrintedLine_render hregistry (IssueKind.isUnbroken_label _) h

end Message

structure Writes (outcome : Outcome) (messages : List Message) : Prop where
  err_eq : outcome.err = messages.flatMap Message.render
  isLine : ∀ message ∈ messages, message.IsLine

theorem Writes.ite {condition : Prop} [Decidable condition] {first second : Outcome}
    {messages others : List Message} (hfirst : condition → Writes first messages)
    (hsecond : ¬condition → Writes second others) :
    Writes (if condition then first else second) (if condition then messages else others) := by
  split
  · next h => exact hfirst h
  · next h => exact hsecond h

theorem writes_misused (error : UsageError) :
    Writes (.misused error) [.words error.message] :=
  ⟨(List.append_nil _).symm, List.forall_mem_singleton.mpr trivial⟩

theorem writes_refused {text : Text} (h : text.IsUnbroken) :
    Writes (.refused text) [.failure text] :=
  ⟨(List.append_nil _).symm, List.forall_mem_singleton.mpr (Message.isLine_failure h)⟩

/-! ## Spans -/

def spansMessages (disk : Disk Id) : List Text → List Message
  | [path] =>
      match (readDocument disk .empty path .document).run with
      | .error error => [.failure error.message]
      | .ok (_, document) =>
          match partitionFault? (segment document.text) document.text.length with
          | some fault => [.failure fault.message]
          | none => []
  | _ => [.words UsageError.missingArgument.message]

theorem writes_spans {disk : Disk Id} {arguments : List Text}
    (harguments : ∀ argument ∈ arguments, argument.IsUnbroken) :
    Writes (spans disk arguments).run (spansMessages disk arguments) := by
  match arguments with
  | [] => exact writes_misused _
  | _ :: _ :: _ => exact writes_misused _
  | [path] =>
      have hpath := harguments path List.mem_cons_self
      simp only [spans, withDocument, spansMessages, Id.run, bind, pure]
      cases hread : readDocument disk .empty path .document with
      | error error => exact writes_refused (isUnbroken_of_readDocument_error hpath hread)
      | ok loaded =>
          simp only [listSpans, partitionFault?_segment_eq_none]
          exact ⟨rfl, List.forall_mem_nil _⟩

/-! ## Logs -/

theorem DiagnoseOptions.isUnbroken_read {options result : DiagnoseOptions} {arguments : List Text}
    (h : DiagnoseOptions.read options arguments = .ok result)
    (harguments : ∀ argument ∈ arguments, argument.IsUnbroken)
    (hsource : options.source.IsUnbroken) : result.source.IsUnbroken := by
  fun_induction DiagnoseOptions.read options arguments with
  | case1 options =>
      cases h
      exact hsource
  | case2 => cases h
  | case3 options option hoption path rest ih =>
      obtain ⟨-, hpath, hrest⟩ : _ ∧ _ ∧ _ := by simpa using harguments
      exact ih h hrest hpath
  | case4 => cases h

def diagnoseMessages (disk : Disk Id) : List Text → List Message
  | [] => [.words UsageError.missingArgument.message]
  | path :: rest =>
      match DiagnoseOptions.read {} rest with
      | .error error => [.words error.message]
      | .ok options =>
          match (readText disk .empty path .log).run with
          | .error error => [.failure error.message]
          | .ok (registry, log) =>
              match attribution options registry log.file with
              | .error error => [.failure error.message]
              | .ok (registry, file) => (Log.classify log.text).map (.ofIssue registry file none)

theorem isUnbroken_attribution {options : DiagnoseOptions} (hsource : options.source.IsUnbroken)
    {registry : Registry} (hregistry : registry.IsUnbroken) (log : UInt32) :
    match attribution options registry log with
    | .error error => error.message.IsUnbroken
    | .ok (registry, _) => registry.IsUnbroken := by
  unfold attribution
  split_ifs
  · exact hregistry
  · have hregister := registry.register_spec options.source .document
    cases hresult : registry.register options.source .document with
    | error error =>
        rw [hresult] at hregister
        rw [hregister]
        exact LoadError.isUnbroken_message hsource
    | ok registered =>
        rw [hresult] at hregister
        rw [hregister]
        exact hregistry.add hsource _

theorem writes_reportLog {registry : Registry} (hregistry : registry.IsUnbroken) (file : UInt32)
    (log : Text) :
    Writes (reportLog registry file log)
      ((Log.classify log).map (.ofIssue registry file none)) := by
  refine ⟨?_, ?_⟩
  · simp only [reportLog, Diagnostic.renderAll, List.flatMap_map]
    rfl
  · simp only [List.forall_mem_map]
    intro issue hissue
    exact Message.isLine_ofIssue hregistry _ _ (Log.isUnbroken_classify issue hissue)

theorem writes_diagnose {disk : Disk Id} {arguments : List Text}
    (harguments : ∀ argument ∈ arguments, argument.IsUnbroken) :
    Writes (diagnose disk arguments).run (diagnoseMessages disk arguments) := by
  cases arguments with
  | nil => exact writes_misused _
  | cons path rest =>
      obtain ⟨hpath, hrest⟩ := List.forall_mem_cons.mp harguments
      simp only [diagnose, withOptions, diagnoseMessages, Id.run, bind, pure]
      cases hoptions : DiagnoseOptions.read {} rest with
      | error error => exact writes_misused _
      | ok options =>
          have hsource := DiagnoseOptions.isUnbroken_read hoptions hrest Text.isUnbroken_nil
          cases hread : readText disk .empty path .log with
          | error error => exact writes_refused (isUnbroken_of_readText_error hpath hread)
          | ok loaded =>
              have hregistry := isUnbroken_attribution hsource
                (Registry.isUnbroken_empty.of_readText hpath hread) loaded.2.file
              simp only [diagnoseLog]
              cases hattribution : attribution options loaded.1 loaded.2.file with
              | error error =>
                  rw [hattribution] at hregistry
                  exact writes_refused hregistry
              | ok attributed =>
                  rw [hattribution] at hregistry
                  exact writes_reportLog hregistry _ _

/-! ## Delivery -/

def deliveryMessages (disk : Disk Id) (path text announcement : Text) : List Message :=
  if path.isEmpty then []
  else match (disk.write path text).run with
    | .written => [.words (announcement ++ path ++ "\n")]
    | .refused => [.failure ("unable to write " ++ path)]
    | .broken => [.failure ("error writing " ++ path)]

theorem Writes.undelivered {outcome : Outcome} {messages : List Message}
    (h : Writes outcome messages) {text : Text} (htext : text.IsUnbroken) :
    Writes (outcome.undelivered text) (messages ++ [.failure text]) where
  err_eq := by simp [Outcome.undelivered, h.err_eq, Message.render, Message.failure]
  isLine := List.forall_mem_append.mpr
    ⟨h.isLine, List.forall_mem_singleton.mpr (Message.isLine_failure htext)⟩

theorem Writes.deliver {outcome : Outcome} {messages : List Message} (h : Writes outcome messages)
    (disk : Disk Id) {path : Text} (hpath : path.IsUnbroken) (text announcement : Text) :
    Writes (outcome.deliver disk path text announcement).run
      (messages ++ deliveryMessages disk path text announcement) := by
  unfold Outcome.deliver deliveryMessages
  simp only [Id.run, bind, pure]
  cases path.isEmpty with
  | true => exact ⟨h.err_eq.trans (by simp), by simpa using h.isLine⟩
  | false =>
      cases disk.write path text with
      | written =>
          refine ⟨?_, List.forall_mem_append.mpr ⟨h.isLine, List.forall_mem_singleton.mpr trivial⟩⟩
          simp [h.err_eq, Message.render]
      | refused => exact h.undelivered (Text.isUnbroken_append.mpr ⟨by decide, hpath⟩)
      | broken => exact h.undelivered (Text.isUnbroken_append.mpr ⟨by decide, hpath⟩)

/-! ## Repair -/

structure FixOptions.IsUnbroken (options : FixOptions) : Prop where
  output : options.output.IsUnbroken
  log : options.log.IsUnbroken

theorem FixOptions.isUnbroken_read {options result : FixOptions} {arguments : List Text}
    (h : FixOptions.read options arguments = .ok result)
    (harguments : ∀ argument ∈ arguments, argument.IsUnbroken) (hoptions : options.IsUnbroken) :
    result.IsUnbroken := by
  fun_induction FixOptions.read options arguments with
  | case1 | case3 | case5 | case9 | case10 | case12 => cases h
  | case2 =>
      cases h
      exact hoptions
  | case4 _ _ _ path rest ih =>
      obtain ⟨-, hpath, hrest⟩ : _ ∧ _ ∧ _ := by simpa using harguments
      exact ih h hrest ⟨hpath, hoptions.log⟩
  | case6 _ _ _ _ path rest ih =>
      obtain ⟨-, hpath, hrest⟩ : _ ∧ _ ∧ _ := by simpa using harguments
      exact ih h hrest ⟨hoptions.output, hpath⟩
  | case7 _ _ _ _ _ _ ih | case8 _ _ _ _ _ _ _ ih =>
      exact ih h (List.forall_mem_cons.mp harguments).2 ⟨hoptions.output, hoptions.log⟩
  | case11 _ _ _ _ _ _ _ _ _ _ _ ih =>
      obtain ⟨-, -, hrest⟩ : _ ∧ _ ∧ _ := by simpa using harguments
      exact ih h hrest ⟨hoptions.output, hoptions.log⟩

theorem isUnbroken_logPath {disk : Disk Id} {options : FixOptions} (hoptions : options.IsUnbroken)
    {document : Text} (hdocument : document.IsUnbroken) :
    IsUnbroken (logPath disk options document).run := by
  unfold logPath
  simp only [Id.run, bind, pure]
  split
  · split
    · exact Path.isUnbroken_withExtension (by decide) hdocument
    · exact Text.isUnbroken_nil
  · exact hoptions.log

theorem isUnbroken_logIssues {disk : Disk Id} {registry : Registry} {path : Text}
    (hregistry : registry.IsUnbroken) (hpath : path.IsUnbroken) :
    match (logIssues disk registry path).run with
    | .error error => error.message.IsUnbroken
    | .ok (registry', issues) =>
        registry'.IsUnbroken ∧ ∃ log : Option Text, issues = log.map Log.classify := by
  unfold logIssues
  simp only [Id.run, bind, pure]
  split_ifs
  · exact ⟨hregistry, none, rfl⟩
  · cases hread : readText disk registry path .log with
    | error error => exact isUnbroken_of_readText_error hpath hread
    | ok loaded => exact ⟨hregistry.of_readText hpath hread, some loaded.2.text, rfl⟩

theorem isUnbroken_residual {disk : Disk Id} {options : FigureOptions} {directory text : Text}
    {bound : Nat} (log : Option Text) :
    ∀ issue ∈ (Repair.repeatRounds disk options directory (log.map Log.classify) bound
      text).run.residual, issue.message.IsUnbroken := by
  cases bound with
  | zero => exact List.forall_mem_nil _
  | succ bound =>
      rw [Repair.residual_repeatRounds (Nat.succ_pos bound)]
      refine List.forall_mem_append.mpr ⟨fun issue hissue => ?_, isUnbroken_balanceIssues⟩
      have hgiven := List.mem_of_mem_filter hissue
      cases log with
      | none => cases hgiven
      | some log => exact Log.isUnbroken_classify issue hgiven

def reportMessages (disk : Disk Id) (options : FixOptions) (registry : Registry)
    (document : Document) (listing : Text) (progress : Repair.Progress) : List Message :=
  [.words listing] ++
    progress.residual.map
      (.ofIssue registry document.file (some { document with text := progress.text })) ++
    if options.preview then []
    else [.words (renderApplied progress.fixes)] ++
      deliveryMessages disk options.output progress.text "Fixed file written to "

def repairMessages (disk : Disk Id) (settings : Settings) (options : FixOptions)
    (registry : Registry) (document : Document) : List Message :=
  match (logIssues disk registry (logPath disk options document.path).run).run with
  | .error error => [.failure error.message]
  | .ok (registry, issues) =>
      reportMessages disk options registry document (renderLogIssues (issues.getD []))
        (Repair.repeatRounds disk settings.figures (disk.directoryOf document.path) issues
          options.rounds document.text).run

def fixMessages (disk : Disk Id) (settings : Settings) : List Text → List Message
  | [] => [.words UsageError.missingArgument.message]
  | path :: rest =>
      match FixOptions.read { rounds := settings.maxRounds } rest with
      | .error error => [.words error.message]
      | .ok options =>
          match (readDocument disk .empty path .document).run with
          | .error error => [.failure error.message]
          | .ok (registry, document) => repairMessages disk settings options registry document

theorem flatMap_render_ofIssue (registry : Registry) (file : UInt32) (document : Option Document)
    (issues : List Issue) :
    (issues.map (Message.ofIssue registry file document)).flatMap Message.render =
      Issue.renderAll registry file document issues :=
  List.flatMap_map _ _ _

section Repair

variable {disk : Disk Id} {options : FixOptions} {registry : Registry} {document : Document}

theorem writes_reportRepair {progress : Repair.Progress} (hoptions : options.IsUnbroken)
    (hregistry : registry.IsUnbroken)
    (hresidual : ∀ issue ∈ progress.residual, issue.message.IsUnbroken) (listing : Text) :
    Writes (reportRepair disk options registry document listing progress).run
      (reportMessages disk options registry document listing progress) := by
  have hlines : ∀ message ∈ progress.residual.map
      (Message.ofIssue registry document.file (some { document with text := progress.text })),
        message.IsLine :=
    List.forall_mem_map.mpr fun issue hissue =>
      Message.isLine_ofIssue hregistry _ _ (hresidual issue hissue)
  unfold reportRepair reportMessages
  cases hpreview : options.preview with
  | true =>
      refine ⟨?_, ?_⟩
      · simp [flatMap_render_ofIssue, Message.render, Id.run, pure]
      · simpa [Message.IsLine] using hlines
  | false =>
      rw [if_neg Bool.false_ne_true, if_neg Bool.false_ne_true, ← List.append_assoc]
      refine Writes.deliver ⟨?_, ?_⟩ disk hoptions.output _ _
      · simp [flatMap_render_ofIssue, Message.render]
      · simpa [Message.IsLine, or_imp, forall_and] using hlines

theorem writes_repairDocument (settings : Settings) (hoptions : options.IsUnbroken)
    (hregistry : registry.IsUnbroken) (hpath : document.path.IsUnbroken) :
    Writes (repairDocument disk settings options registry document).run
      (repairMessages disk settings options registry document) := by
  have hissues := @isUnbroken_logIssues disk registry _ hregistry
    (@isUnbroken_logPath disk options hoptions document.path hpath)
  unfold repairMessages
  cases hlog : (logIssues disk registry (logPath disk options document.path).run).run with
  | error error =>
      rw [hlog] at hissues
      simp only [Id.run] at hlog
      simp only [repairDocument, Id.run, bind, hlog]
      exact writes_refused hissues
  | ok loaded =>
      rw [hlog] at hissues
      obtain ⟨registry', issues⟩ := loaded
      obtain ⟨hregistry', log, rfl⟩ := hissues
      simp only [Id.run] at hlog
      simp only [repairDocument, Id.run, bind, hlog]
      exact writes_reportRepair hoptions hregistry' (isUnbroken_residual log) _

end Repair

theorem writes_fix {disk : Disk Id} (settings : Settings) {arguments : List Text}
    (harguments : ∀ argument ∈ arguments, argument.IsUnbroken) :
    Writes (fix disk settings arguments).run (fixMessages disk settings arguments) := by
  cases arguments with
  | nil => exact writes_misused _
  | cons path rest =>
      obtain ⟨hpath, hrest⟩ := List.forall_mem_cons.mp harguments
      simp only [fix, withOptions, withDocument, fixMessages, Id.run, bind, pure]
      cases hoptions : FixOptions.read { rounds := settings.maxRounds } rest with
      | error error => exact writes_misused _
      | ok options =>
          have hunbroken := FixOptions.isUnbroken_read hoptions hrest
            ⟨Text.isUnbroken_nil, Text.isUnbroken_nil⟩
          cases hread : readDocument disk .empty path .document with
          | error error => exact writes_refused (isUnbroken_of_readDocument_error hpath hread)
          | ok loaded =>
              obtain ⟨hregistry, hdocument⟩ :=
                Registry.isUnbroken_empty.of_readDocument hpath hread
              exact writes_repairDocument settings hunbroken hregistry hdocument

/-! ## Checks -/

structure Inputs.IsUnbroken (inputs : Inputs) : Prop where
  registry : inputs.registry.IsUnbroken
  unresolved : ∀ issue ∈ inputs.unresolved, issue.message.IsUnbroken

theorem isUnbroken_fileName {name : Text} (h : name.IsUnbroken) :
    IsUnbroken (InputCommand.fileName name) := by
  unfold InputCommand.fileName
  dsimp only
  split
  · exact h
  · exact Text.isUnbroken_append.mpr ⟨h, by decide⟩

theorem Inputs.isUnbroken_notFound {path : Text} (h : path.IsUnbroken) (offset : Nat) :
    (notFound path offset).message.IsUnbroken := by
  unfold notFound
  rw [Text.isUnbroken_append, Text.isUnbroken_append]
  exact ⟨⟨by decide, Path.isUnbroken_collapseSeparators h⟩, by decide⟩

theorem Inputs.isUnbroken_load {disk : Disk Id} {directory : Text}
    (hdirectory : directory.IsUnbroken) {commands : List InputCommand}
    (hcommands : ∀ command ∈ commands, command.name.IsUnbroken) {inputs : Inputs}
    (hinputs : inputs.IsUnbroken) :
    match (load disk directory inputs commands).run with
    | .error error => error.message.IsUnbroken
    | .ok inputs => inputs.IsUnbroken := by
  -- Each command registers a file or adds an issue, and both are named by its own path.
  induction commands generalizing inputs with
  | nil => exact hinputs
  | cons command rest ih =>
      obtain ⟨hcommand, hrest⟩ := List.forall_mem_cons.mp hcommands
      have hpath := Path.isUnbroken_resolve hdirectory (isUnbroken_fileName hcommand)
      rw [load]
      generalize Path.resolve directory (InputCommand.fileName command.name) = path at hpath ⊢
      simp only [Id.run] at ih ⊢
      simp only [bind, pure]
      cases disk.isPresent path with
      | false =>
          exact ih hrest ⟨hinputs.registry, List.forall_mem_append.mpr
            ⟨hinputs.unresolved, List.forall_mem_singleton.mpr (isUnbroken_notFound hpath _)⟩⟩
      | true =>
          cases hread : readDocument disk inputs.registry path .input with
          | error error => exact isUnbroken_of_readDocument_error hpath hread
          | ok loaded =>
              exact ih hrest ⟨(hinputs.registry.of_readDocument hpath hread).1, hinputs.unresolved⟩

theorem isUnbroken_documentIssues (options : CheckOptions) (text : Text) :
    ∀ issue ∈ documentIssues options text, issue.message.IsUnbroken := by
  unfold documentIssues
  simp only [List.forall_mem_append]
  refine ⟨⟨⟨isUnbroken_balanceIssues, Submission.isUnbroken_markerIssues⟩, ?_⟩, ?_⟩
  · split
    · exact Submission.isUnbroken_sectionIssues
    · exact List.forall_mem_nil _
  · split
    · exact Submission.isUnbroken_anonymityIssues
    · exact List.forall_mem_nil _

theorem isPrintedLine_localDiagnostic {registry : Registry} (hregistry : registry.IsUnbroken)
    (expansion : Expansion) {issue : Issue} (h : issue.message.IsUnbroken) :
    IsPrintedLine ((localDiagnostic expansion issue).render registry) := by
  have hmessage : (expansion.localize issue).1.message = issue.message := by
    unfold Expansion.localize
    split <;> rfl
  refine Diagnostic.isPrintedLine_render hregistry (IssueKind.isUnbroken_label _) ?_
  show (expansion.localize issue).1.message.IsUnbroken
  rwa [hmessage]

def loadedMessages (options : CheckOptions) (main : Document) (inputs : Inputs) : List Message :=
  let expansion := Expansion.ofInputs main inputs.resolved
  inputs.unresolved.map (.ofIssue inputs.registry main.file (some main)) ++
    (documentIssues options expansion.text).map fun issue =>
      .finding inputs.registry (localDiagnostic expansion issue)

theorem writes_checkLoaded {options : CheckOptions} {main : Document} {inputs : Inputs}
    (h : inputs.IsUnbroken) :
    Writes (checkLoaded options main inputs) (loadedMessages options main inputs) := by
  refine ⟨?_, List.forall_mem_append.mpr ⟨?_, ?_⟩⟩
  · simp only [checkLoaded, loadedMessages, List.flatMap_append, Diagnostic.renderAll,
      List.flatMap_map]
    rfl
  · exact List.forall_mem_map.mpr fun issue hissue =>
      Message.isLine_ofIssue h.registry _ _ (h.unresolved issue hissue)
  · exact List.forall_mem_map.mpr fun issue hissue =>
      isPrintedLine_localDiagnostic h.registry _ (isUnbroken_documentIssues _ _ issue hissue)

def inputMessages (disk : Disk Id) (options : CheckOptions) (registry : Registry)
    (document : Document) : List Message :=
  let commands := if options.withInputs then inputCommands document.text else []
  match (Inputs.load disk (disk.directoryOf document.path) ⟨registry, [], []⟩ commands).run with
  | .error error => [.failure error.message]
  | .ok inputs => loadedMessages options document inputs

theorem writes_checkWithInputs {disk : Disk Id} {options : CheckOptions} {registry : Registry}
    {document : Document} (hdirectory : disk.workingDirectory.IsUnbroken)
    (hregistry : registry.IsUnbroken) (hpath : document.path.IsUnbroken)
    (hnames : options.withInputs = true →
      ∀ command ∈ inputCommands document.text, command.name.IsUnbroken) :
    Writes (checkWithInputs disk options registry document).run
      (inputMessages disk options registry document) := by
  have hcommands : ∀ command ∈ (if options.withInputs then inputCommands document.text else []),
      command.name.IsUnbroken := by
    split
    · next hinputs => exact hnames hinputs
    · exact List.forall_mem_nil _
  have hload := @Inputs.isUnbroken_load disk _ (Disk.isUnbroken_directoryOf hdirectory hpath) _
    hcommands ⟨registry, [], []⟩ ⟨hregistry, List.forall_mem_nil _⟩
  unfold checkWithInputs inputMessages
  simp only [Id.run, bind, pure] at hload ⊢
  generalize Inputs.load disk _ _ _ = loaded at hload ⊢
  cases loaded with
  | error error => exact writes_refused hload
  | ok inputs => exact writes_checkLoaded hload

def checkMessages (disk : Disk Id) : List Text → List Message
  | [] => [.words UsageError.missingArgument.message]
  | path :: rest =>
      match CheckOptions.read {} rest with
      | .error error => [.words error.message]
      | .ok options =>
          match (readDocument disk .empty path .document).run with
          | .error error => [.failure error.message]
          | .ok (registry, document) => inputMessages disk options registry document

/-- No name of an input file that `check` looks for holds a line feed. -/
def InputNamesAreUnbroken (disk : Disk Id) : List Text → Prop
  | [] => True
  | path :: rest => ∀ options registry document, CheckOptions.read {} rest = .ok options →
      (readDocument disk .empty path .document).run = .ok (registry, document) →
        options.withInputs = true →
          ∀ command ∈ inputCommands document.text, command.name.IsUnbroken

theorem writes_check {disk : Disk Id} {arguments : List Text}
    (hdirectory : disk.workingDirectory.IsUnbroken)
    (harguments : ∀ argument ∈ arguments, argument.IsUnbroken)
    (hnames : InputNamesAreUnbroken disk arguments) :
    Writes (check disk arguments).run (checkMessages disk arguments) := by
  cases arguments with
  | nil => exact writes_misused _
  | cons path rest =>
      obtain ⟨hpath, hrest⟩ := List.forall_mem_cons.mp harguments
      simp only [check, withOptions, withDocument, checkMessages, Id.run, bind, pure]
      cases hoptions : CheckOptions.read {} rest with
      | error error => exact writes_misused _
      | ok options =>
          have hnamed := hnames options
          cases hread : readDocument disk .empty path .document with
          | error error => exact writes_refused (isUnbroken_of_readDocument_error hpath hread)
          | ok loaded =>
              obtain ⟨hregistry, hdocument⟩ :=
                Registry.isUnbroken_empty.of_readDocument hpath hread
              exact writes_checkWithInputs hdirectory hregistry hdocument
                (hnamed loaded.1 loaded.2 hoptions hread)

/-! ## Sanitization -/

theorem CleanOptions.isUnbroken_read {options result : CleanOptions} {arguments : List Text}
    (h : CleanOptions.read options arguments = .ok result)
    (harguments : ∀ argument ∈ arguments, argument.IsUnbroken)
    (houtput : options.output.IsUnbroken) : result.output.IsUnbroken := by
  fun_induction CleanOptions.read options arguments with
  | case1 =>
      cases h
      exact houtput
  | case2 | case6 => cases h
  | case3 _ _ _ path rest ih =>
      obtain ⟨-, hpath, hrest⟩ : _ ∧ _ ∧ _ := by simpa using harguments
      exact ih h hrest hpath
  | case4 _ _ _ _ _ ih | case5 _ _ _ _ _ _ ih =>
      exact ih h (List.forall_mem_cons.mp harguments).2 houtput

def cleanMessages (disk : Disk Id) (settings : Settings) : List Text → List Message
  | [] => [.words UsageError.missingArgument.message]
  | path :: rest =>
      match CleanOptions.read { onlyTables := settings.onlyTables } rest with
      | .error error => [.words error.message]
      | .ok options =>
          match (readDocument disk .empty path .document).run with
          | .error error => [.failure error.message]
          | .ok (_, document) =>
              if options.preview then []
              else deliveryMessages disk options.output
                (sanitize .standard options.scope document.text) "Cleaned file written to "

theorem writes_clean {disk : Disk Id} (settings : Settings) {arguments : List Text}
    (harguments : ∀ argument ∈ arguments, argument.IsUnbroken) :
    Writes (clean disk settings arguments).run (cleanMessages disk settings arguments) := by
  cases arguments with
  | nil => exact writes_misused _
  | cons path rest =>
      obtain ⟨hpath, hrest⟩ := List.forall_mem_cons.mp harguments
      simp only [clean, withOptions, withDocument, cleanMessages, Id.run, bind, pure]
      cases hoptions : CleanOptions.read { onlyTables := settings.onlyTables } rest with
      | error error => exact writes_misused _
      | ok options =>
          have houtput := CleanOptions.isUnbroken_read hoptions hrest Text.isUnbroken_nil
          cases hread : readDocument disk .empty path .document with
          | error error => exact writes_refused (isUnbroken_of_readDocument_error hpath hread)
          | ok loaded =>
              simp only [cleanDocument]
              split
              · exact ⟨rfl, List.forall_mem_nil _⟩
              · exact Writes.deliver ⟨rfl, List.forall_mem_nil _⟩ disk houtput _ _

/-! ## The command line -/

def messages (disk : Disk Id) (settings : Settings) (command : Text) (arguments : List Text) :
    List Message :=
  if command == "--version" then []
  else if command == "--help" || command == "-h" then [.words usage]
  else if command == "clean" then cleanMessages disk settings arguments
  else if command == "check" then checkMessages disk arguments
  else if command == "diagnose" then diagnoseMessages disk arguments
  else if command == "fix" then fixMessages disk settings arguments
  else if command == "spans" then spansMessages disk arguments
  else [.words (UsageError.unknownCommand command).message]

/--
Every diagnostic that a command prints is exactly one line, whatever the documents, the
logs, the included files and the options are, if no path that is given holds a line feed.
For `check`, the names of the input files that it looks for are such paths.
-/
theorem dispatch_printsLines {disk : Disk Id} {settings : Settings} {command : Text}
    {arguments : List Text} (hdirectory : disk.workingDirectory.IsUnbroken)
    (harguments : ∀ argument ∈ arguments, argument.IsUnbroken)
    (hnames : command = "check" → InputNamesAreUnbroken disk arguments) :
    (dispatch disk settings (command :: arguments)).run.err =
        (messages disk settings command arguments).flatMap Message.render ∧
      ∀ registry diagnostic,
        .finding registry diagnostic ∈ messages disk settings command arguments →
          IsPrintedLine (diagnostic.render registry) := by
  have hwrites : Writes (dispatch disk settings (command :: arguments)).run
      (messages disk settings command arguments) := by
    unfold dispatch messages
    refine .ite (fun _ => ⟨rfl, List.forall_mem_nil _⟩) fun _ => ?_
    refine .ite (fun _ => ⟨(List.append_nil _).symm, List.forall_mem_singleton.mpr trivial⟩)
      fun _ => ?_
    refine .ite (fun _ => writes_clean settings harguments) fun _ => ?_
    refine .ite (fun hcheck => writes_check hdirectory harguments (hnames (beq_iff_eq.mp hcheck)))
      fun _ => ?_
    refine .ite (fun _ => writes_diagnose harguments) fun _ => ?_
    refine .ite (fun _ => writes_fix settings harguments) fun _ => ?_
    exact .ite (fun _ => writes_spans harguments) fun _ => writes_misused _
  exact ⟨hwrites.err_eq, fun registry diagnostic h => hwrites.isLine _ h⟩

/-- A missing input file and a marker. -/
theorem dispatch_printsLines_missing :
    let tree : FileTree := { files := [(["a.tex"], "\\input\x7bb\x7d\nTODO\n")] }
    let written := messages tree.disk {} "check" ["a.tex"]
    (dispatch tree.disk {} ["check", "a.tex"]).run.err = written.flatMap Message.render ∧
      (∀ registry diagnostic, .finding registry diagnostic ∈ written →
        IsPrintedLine (diagnostic.render registry)) ∧ written.length = 2 := by
  intro tree written
  have hnames : InputNamesAreUnbroken tree.disk ["a.tex"] := by
    intro options registry document _ hread _
    cases hread
    decide +kernel
  have harguments : ∀ argument ∈ (["a.tex"] : List Text), argument.IsUnbroken := by decide
  obtain ⟨herr, hlines⟩ := @dispatch_printsLines tree.disk {} "check" ["a.tex"] (by decide)
    harguments fun _ => hnames
  exact ⟨herr, hlines, by decide +kernel⟩

/-- The line feed in the name of an input file is printed. -/
example :
    let tree : FileTree := { files := [(["a.tex"], "\\input\x7bb\nc\x7d\n")] }
    (dispatch tree.disk {} ["check", "a.tex"]).run.err =
      "a.tex:1:1: note: [missing-file] input file /b\nc.tex not found; not checked\n" := by
  decide +kernel

end Command

end LatexIntegrity
