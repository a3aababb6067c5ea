import Mathlib.Data.Finset.Card
import Mathlib.Data.Finset.Dedup
import LatexIntegrity.Command.Check
import LatexIntegrity.Proofs.Include.Origins
import LatexIntegrity.Proofs.Include.Shape
import LatexIntegrity.Source.FileTree

/-!
# Input commands that overlap

The commands are listed span by span, and the argument of a command may go on behind the span
that it begins in.  A command in a later span may therefore stand inside that argument.  Both
then end with the same brace, and only the first one of them that has a file is put in.
-/

namespace LatexIntegrity

namespace InputCommand

variable {text : Text} {command : InputCommand}

/-! ## The order of the commands -/

theorem pairwise_listFrom (stop : Nat) (context : LeftContext) (offset : Nat) (text : Text) :
    (∀ command ∈ listFrom stop context offset text, offset ≤ command.start) ∧
      (listFrom stop context offset text).Pairwise fun first second =>
        first.stop ≤ second.start := by
  fun_induction listFrom stop context offset text with
  | case1 => exact ⟨List.forall_mem_nil _, .nil⟩
  | case2 => exact ⟨List.forall_mem_nil _, .nil⟩
  | case3 context offset b rest hstop name length hread ih =>
      obtain ⟨hbound, hapart⟩ := ih
      refine ⟨List.forall_mem_cons.mpr ⟨Nat.le_refl offset, fun command hcommand => ?_⟩,
        .cons hbound hapart⟩
      have := hbound command hcommand
      omega
  | case4 context offset b rest hstop hread ih =>
      obtain ⟨hbound, hapart⟩ := ih
      exact ⟨fun command hcommand => Nat.le_of_succ_le (hbound command hcommand), hapart⟩

theorem isIn_of_mem_inputCommands (h : command ∈ inputCommands text) : IsIn text command :=
  at?_iff_isIn.mp (of_mem_inputCommands h).1

theorem pairwise_inputCommands_span (text : Text) :
    (inputCommands text).Pairwise fun first second => first.start < second.start ∧
      (first.stop ≤ second.start ∨
        ∃ span ∈ segment text, first.start < span.start ∧ span.start ≤ second.start) := by
  refine List.pairwise_flatMap.mpr ⟨fun span _ => ?_, ?_⟩
  · refine (pairwise_listFrom _ _ _ _).2.imp_of_mem fun hfirst _ hle => ⟨?_, .inl hle⟩
    obtain ⟨distance, length, -, hread, hstart, hstop⟩ := mem_listFrom hfirst
    have := length_pos_of_read? hread
    omega
  · have hspans := ((tiles_segment text).pairwise.filter isCounted)
    refine hspans.imp_of_mem fun hspan hspan' hapart first hfirst second hsecond => ?_
    obtain ⟨distance, length, hlt, -, hstart, -⟩ := mem_listFrom hfirst
    have hbound := (pairwise_listFrom _ _ _ _).1 second hsecond
    exact ⟨by omega, .inr ⟨_, (List.mem_filter.mp hspan').1, by omega, hbound⟩⟩

/-- The second command begins behind the first one, or inside it, and then ends as it does. -/
def Precedes (first second : InputCommand) : Prop :=
  first.start < second.start ∧ second.start < second.stop ∧
    (first.stop ≤ second.start ∨ first.stop = second.stop)

theorem pairwise_inputCommands (text : Text) : (inputCommands text).Pairwise Precedes := by
  refine (pairwise_inputCommands_span text).imp_of_mem fun {first second} hfirst hsecond hlt => ?_
  have hfirst := isIn_of_mem_inputCommands hfirst
  have hsecond := isIn_of_mem_inputCommands hsecond
  refine ⟨hlt.1, hsecond.start_lt_stop, ?_⟩
  rcases Nat.lt_or_ge second.start first.stop with hinside | hbehind
  · exact .inr (hfirst.stop_eq hsecond hlt.1 hinside)
  · exact .inl hbehind

theorem pairwise_disjoint_of_within (h : ∀ command ∈ inputCommands text, ∃ span ∈ segment text,
    span.start ≤ command.start ∧ command.stop ≤ span.stop) :
    (inputCommands text).Pairwise fun first second => first.stop ≤ second.start := by
  refine (pairwise_inputCommands_span text).imp_of_mem fun {first second} hfirst _ hlt => ?_
  rcases hlt.2 with hapart | ⟨later, hlater, hbegin, hend⟩
  · exact hapart
  · -- The span of the first command ends before the later one begins.
    obtain ⟨span, hspan, hstart, hstop⟩ := h first hfirst
    have hpos := (isIn_of_mem_inputCommands hfirst).start_lt_stop
    have hbounds := (tiles_segment text).bounds hlater
    have hapart := (tiles_segment text).apart hspan hlater (by rintro rfl; omega)
    omega

theorem pairwise_disjoint_iff {commands : List InputCommand} (h : commands.Pairwise Precedes) :
    (commands.Pairwise fun first second => first.stop ≤ second.start) ↔
      (commands.map (·.stop)).Nodup := by
  rw [List.Nodup, List.pairwise_map]
  constructor
  · intro hapart
    refine hapart.imp₂ (fun _ _ hle hprecedes => ?_) h
    have := hprecedes.2.1
    omega
  · intro hne
    exact hne.imp₂ (fun _ _ hne hprecedes => hprecedes.2.2.resolve_right hne) h

end InputCommand

/-! ## The inputs that are put in -/

namespace Inclusion

/--
Of the inputs that end with the same brace the first one is put in, but none that ends at the
cursor.
-/
theorem length_accepted {size cursor : Nat} {resolved : List ResolvedInput}
    (h : (resolved.map (·.command)).Pairwise InputCommand.Precedes)
    (hwithin : ∀ input ∈ resolved, input.document.isSome = true ∧
      input.command.start < input.command.stop ∧ input.command.stop ≤ size)
    (hcursor : ∀ input ∈ resolved, cursor ≤ input.command.start ∨ input.command.stop = cursor) :
    (accepted size cursor resolved).length =
      ((resolved.map (·.command.stop)).toFinset.erase cursor).card := by
  induction resolved generalizing cursor with
  | nil => rfl
  | cons input rest ih =>
      obtain ⟨hfirst, hrest⟩ := List.pairwise_cons.mp h
      obtain ⟨⟨hsome, hpos, hsize⟩, hwithin'⟩ := List.forall_mem_cons.mp hwithin
      obtain ⟨hplace, hcursor'⟩ := List.forall_mem_cons.mp hcursor
      obtain ⟨command, document⟩ := input
      obtain ⟨document, rfl⟩ := Option.isSome_iff_exists.mp hsome
      simp only at hfirst hpos hsize hplace
      have hbehind : ∀ later ∈ rest, command.start < later.command.start ∧
          (command.stop ≤ later.command.start ∨ later.command.stop = command.stop) := by
        intro later hlater
        obtain ⟨hlt, -, hapart⟩ := hfirst _ (List.mem_map_of_mem hlater)
        exact ⟨hlt, hapart.imp_right Eq.symm⟩
      rw [accepted, List.map_cons, List.toFinset_cons]
      rcases hplace with hplace | hplace
      · have hnot : cursor ∉ insert command.stop (rest.map (·.command.stop)).toFinset := by
          rw [Finset.mem_insert, List.mem_toFinset, List.mem_map]
          rintro (hstop | ⟨later, hlater, hstop⟩)
          · omega
          · have := (hbehind later hlater).1
            have := (hwithin' later hlater).2.1
            omega
        rw [if_pos ⟨hplace, hsize⟩, List.length_cons,
          ih hrest hwithin' fun later hlater => (hbehind later hlater).2,
          Finset.erase_eq_of_notMem hnot, ← Finset.erase_insert_eq_erase,
          Finset.card_erase_add_one (Finset.mem_insert_self _ _)]
      · rw [if_neg (by omega), ih hrest hwithin' hcursor', hplace, Finset.erase_insert_eq_erase]

theorem card_stops_eq_length_iff {resolved : List ResolvedInput}
    (h : (resolved.map (·.command)).Pairwise InputCommand.Precedes) :
    (resolved.map (·.command.stop)).toFinset.card = resolved.length ↔
      (resolved.map (·.command)).Pairwise fun first second => first.stop ≤ second.start := by
  have hlength : resolved.length = (resolved.map (·.command.stop)).length :=
    (List.length_map _).symm
  have hstops : (resolved.map (·.command)).map (·.stop) = resolved.map (·.command.stop) :=
    List.map_map
  rw [InputCommand.pairwise_disjoint_iff h, hstops, List.card_toFinset, hlength,
    ← List.dedup_eq_self]
  exact ⟨(List.dedup_sublist _).eq_of_length, congrArg List.length⟩

end Inclusion

namespace Expansion

theorem included_ofInputs {main : Document} {resolved : List ResolvedInput}
    (h : ∀ input ∈ resolved, input.command.start ≤ input.command.stop) :
    (ofInputs main resolved).included = (Inclusion.accepted main.size 0 resolved).length := by
  rw [ofInputs, @spliceFrom_eq { main := main } 0 resolved h (Nat.zero_le _)]
  exact Nat.zero_add _

end Expansion

theorem Command.Inputs.resolved_of_load {disk : Disk Id} {directory : Text} {inputs loaded : Inputs}
    {commands : List InputCommand}
    (h : (load disk directory inputs commands).run = .ok loaded) :
    ∃ resolved : List ResolvedInput, loaded.resolved = inputs.resolved ++ resolved ∧
      resolved.map (·.command) = commands.filter (fun command =>
        (disk.isPresent (Path.resolve directory (InputCommand.fileName command.name))).run) ∧
      ∀ input ∈ resolved, input.document.isSome = true := by
  induction commands generalizing inputs with
  | nil =>
      cases h
      exact ⟨[], by simp, rfl, List.forall_mem_nil _⟩
  | cons command rest ih =>
      rw [load] at h
      rw [List.filter_cons]
      generalize Path.resolve directory (InputCommand.fileName command.name) = path at h ⊢
      simp only [Id.run, bind, pure] at h ih ⊢
      cases hpresent : disk.isPresent path with
      | false =>
          rw [hpresent] at h
          simpa using ih h
      | true =>
          rw [hpresent] at h
          cases hread : readDocument disk inputs.registry path .input with
          | error error =>
              simp only [hread] at h
              cases h
          | ok read =>
              simp only [hread] at h
              obtain ⟨resolved, hresolved, hcommands, hsome⟩ := ih h
              refine ⟨⟨command, some read.2⟩ :: resolved, ?_, ?_, ?_⟩
              · simpa using hresolved
              · simpa using hcommands
              · exact List.forall_mem_cons.mpr ⟨rfl, hsome⟩

theorem Command.Inputs.included_of_load {disk : Disk Id} {registry : Registry}
    {document : Document} {directory : Text} {inputs : Inputs}
    (h : (load disk directory ⟨registry, [], []⟩ (inputCommands document.text)).run = .ok inputs) :
    (inputs.resolved.map (·.command)).Pairwise InputCommand.Precedes ∧
      (Expansion.ofInputs document inputs.resolved).included =
        (inputs.resolved.map (·.command.stop)).toFinset.card := by
  obtain ⟨resolved, hresolved, hcommands, hsome⟩ := resolved_of_load h
  obtain rfl : inputs.resolved = resolved := hresolved
  have hmem : ∀ input ∈ inputs.resolved, InputCommand.IsIn document.text input.command := by
    intro input hinput
    have hcommand : input.command ∈ inputs.resolved.map (·.command) := List.mem_map_of_mem hinput
    rw [hcommands] at hcommand
    exact InputCommand.isIn_of_mem_inputCommands (List.mem_of_mem_filter hcommand)
  have hprecedes : (inputs.resolved.map (·.command)).Pairwise InputCommand.Precedes := by
    rw [hcommands]
    exact (InputCommand.pairwise_inputCommands _).filter _
  have hpos : ∀ input ∈ inputs.resolved, input.command.start < input.command.stop :=
    fun input hinput => (hmem input hinput).start_lt_stop
  refine ⟨hprecedes, ?_⟩
  have hwithin : ∀ input ∈ inputs.resolved, input.document.isSome = true ∧
      input.command.start < input.command.stop ∧ input.command.stop ≤ document.size :=
    fun input hinput => ⟨hsome input hinput, hpos input hinput, (hmem input hinput).stop_le⟩
  rw [Expansion.included_ofInputs fun input hinput => (hpos input hinput).le,
    Inclusion.length_accepted hprecedes hwithin fun input _ => .inl (Nat.zero_le _),
    Finset.erase_eq_of_notMem]
  rw [List.mem_toFinset, List.mem_map]
  rintro ⟨input, hinput, hstop⟩
  have := hpos input hinput
  omega

/--
The commands are listed in the order of their offsets.  Each one stands outside comments and
definitions, is not escaped and ends with the first closing brace of its argument, and none is
left out but inside such an argument.  Two commands overlap only if the second one stands in a
later span, and then both end with the same brace, so commands that end within their spans do
not overlap.  Of the commands whose files are loaded as many are replaced as end with different
braces, which are all of them exactly if they do not overlap.
-/
theorem inputCommands_inOrder (document : Document) :
    let text := document.text
    let commands := inputCommands text
    (∀ command ∈ commands, command.IsIn text ∧ ∃ span ∈ segment text,
        span.contains command.start = true ∧ span.kind ≠ .comment ∧ span.kind ≠ .definition) ∧
      (∀ command : InputCommand, command.IsIn text → ∀ span ∈ segment text,
        span.contains command.start = true → span.kind ≠ .comment → span.kind ≠ .definition →
          command ∈ commands ∨
            ∃ other ∈ commands, other.start < command.start ∧ command.start < other.stop) ∧
      (commands.Pairwise fun first second => first.start < second.start ∧
        (first.stop ≤ second.start ∨ first.stop = second.stop ∧
          ∃ span ∈ segment text, first.start < span.start ∧ span.start ≤ second.start)) ∧
      ((∀ command ∈ commands, ∃ span ∈ segment text,
          span.start ≤ command.start ∧ command.stop ≤ span.stop) →
        commands.Pairwise fun first second => first.stop ≤ second.start) ∧
      ∀ (disk : Disk Id) (registry : Registry) (inputs : Command.Inputs),
        (Command.Inputs.load disk (disk.directoryOf document.path) ⟨registry, [], []⟩
          commands).run = .ok inputs →
        let expansion := Expansion.ofInputs document inputs.resolved
        expansion.included = (inputs.resolved.map (·.command.stop)).toFinset.card ∧
          (expansion.included = inputs.resolved.length ↔
            (inputs.resolved.map (·.command)).Pairwise fun first second =>
              first.stop ≤ second.start) := by
  intro text commands
  refine ⟨fun command hcommand => ?_,
    fun command hin span hspan hcontains hcomment hdefinition => ?_,
    ?_, InputCommand.pairwise_disjoint_of_within, fun disk registry inputs hload => ?_⟩
  · obtain ⟨-, span, hspan, hcounted, hcontains⟩ := InputCommand.of_mem_inputCommands hcommand
    refine ⟨InputCommand.isIn_of_mem_inputCommands hcommand, span, hspan, hcontains, ?_⟩
    simpa [InputCommand.isCounted] using hcounted
  · have hcounted : InputCommand.isCounted span = true := by
      simp [InputCommand.isCounted, hcomment, hdefinition]
    exact InputCommand.mem_inputCommands_or hspan hcounted hcontains
      (InputCommand.at?_iff_isIn.mpr hin)
  · refine (InputCommand.pairwise_inputCommands_span text).imp₂ (fun _ _ hspan hprecedes => ?_)
      (InputCommand.pairwise_inputCommands text)
    refine ⟨hspan.1, ?_⟩
    rcases hprecedes.2.2 with hapart | hsame
    · exact .inl hapart
    · exact hspan.2.imp_right fun hlater => ⟨hsame, hlater⟩
  · obtain ⟨hprecedes, hincluded⟩ := Command.Inputs.included_of_load hload
    refine ⟨hincluded, ?_⟩
    rw [hincluded]
    exact Inclusion.card_stops_eq_length_iff hprecedes

/--
A brace is missing behind `intro`, so that its argument ends behind the second command.  Both
files are loaded, and one is put in.
-/
theorem inputCommands_inOrder_shared :
    let document : Document := { text := "\\input\x7bintro \\[\\input\x7beq\x7d\\]" }
    let tree : FileTree :=
      { files := [(["intro \\[\\input\x7beq.tex"], "x"), (["eq.tex"], "y")] }
    ∃ inputs, (Command.Inputs.load tree.disk (tree.disk.directoryOf document.path) ⟨.empty, [], []⟩
        (inputCommands document.text)).run = .ok inputs ∧
      inputs.resolved.map (·.command) = [⟨"intro \\[\\input\x7beq", 0, 25⟩, ⟨"eq", 15, 25⟩] ∧
        (Expansion.ofInputs document inputs.resolved).included = 1 := by
  intro document tree
  have hok : (Command.Inputs.load tree.disk (tree.disk.directoryOf document.path)
      ⟨.empty, [], []⟩ (inputCommands document.text)).run.isOk = true := by decide +kernel
  cases hload : (Command.Inputs.load tree.disk (tree.disk.directoryOf document.path)
      ⟨.empty, [], []⟩ (inputCommands document.text)).run with
  | error error =>
      rw [hload] at hok
      cases hok
  | ok inputs =>
      obtain ⟨resolved, hresolved, hpresent, -⟩ := Command.Inputs.resolved_of_load hload
      obtain rfl : inputs.resolved = resolved := hresolved
      have hcommands : inputs.resolved.map (·.command) =
          [⟨"intro \\[\\input\x7beq", 0, 25⟩, ⟨"eq", 15, 25⟩] :=
        hpresent.trans (by decide +kernel)
      have hstops : inputs.resolved.map (·.command.stop) =
          (inputs.resolved.map (·.command)).map (·.stop) := List.map_map.symm
      obtain ⟨-, -, -, -, hloaded⟩ := inputCommands_inOrder document
      obtain ⟨hincluded, -⟩ := hloaded tree.disk .empty inputs hload
      refine ⟨inputs, rfl, hcommands, hincluded.trans ?_⟩
      rw [hstops, hcommands]
      decide

end LatexIntegrity
