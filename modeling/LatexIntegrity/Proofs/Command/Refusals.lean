import LatexIntegrity.Proofs.Command.CommandLine

/-!
# Refusals

A command that is run on files which change as it writes them gives the same result as on the
tree that they are at first, and leaves the tree with the files of the result written.  A file
that cannot be opened, like a command line that is not understood, leads to a refusal: the
status 1, nothing on the standard output, and no file written.
-/

namespace LatexIntegrity

/-- Files as they are while a command is run, and the paths that could not be opened so far. -/
structure Session where
  tree : FileTree
  unopened : List Text
  deriving DecidableEq, Repr

def FileTree.liveDisk (tree : FileTree) : Disk (StateM Session) where
  workingDirectory := tree.disk.workingDirectory
  isPresent := fun path => modifyGet fun session => (session.tree.isPresent path, session)
  read := fun path => modifyGet fun session =>
    match session.tree.read? path with
    | some file => (some file, session)
    | none => (none, { session with unopened := session.unopened ++ [path] })
  write := fun path content => modifyGet fun session =>
    match session.tree.target? path with
    | some place => (.written, { session with tree := session.tree.putFile place content })
    | none => (.refused, session)

namespace Command

/-! ## Actions in a session -/

/--
In a session with `tree`, an action gives `a` and leaves the tree `later a`.  Unless `a` is a
failure, every file that it opens is there.
-/
def Runs {α : Type} (tree : FileTree) (failed : α → Prop) (later : α → FileTree)
    (action : StateM Session α) (a : α) : Prop :=
  ∀ unopened, ∃ more, action.run ⟨tree, unopened⟩ = (a, ⟨later a, unopened ++ more⟩) ∧
    (more ≠ [] → failed a)

abbrev Reads {α : Type} (tree : FileTree) (failed : α → Prop) (action : StateM Session α)
    (a : α) : Prop :=
  Runs tree failed (fun _ => tree) action a

abbrev Looks {α : Type} (tree : FileTree) (action : StateM Session α) (a : α) : Prop :=
  Reads tree (fun _ => False) action a

/-- A command that gives a result and writes the files that the result names. -/
abbrev Settles (tree : FileTree) (action : StateM Session Outcome) (outcome : Outcome) : Prop :=
  Runs tree Outcome.IsRefusal (fun outcome => tree.writeAll outcome.written) action outcome

section Actions

variable {α β : Type} {tree : FileTree} {failed : α → Prop} {failed' : β → Prop}
  {later : β → FileTree} {action : StateM Session α} {next : α → StateM Session β}
  {value : Id α} {nextValue : α → Id β}

theorem Runs.bind (haction : Reads tree failed action value.run)
    (hnext : ∀ a, Runs tree failed' later (next a) (nextValue a).run)
    (hfailed : ∀ a, failed a → failed' (nextValue a).run) :
    Runs tree failed' later (action >>= next) (value >>= nextValue).run := by
  intro unopened
  obtain ⟨more, hrun, hmore⟩ := haction unopened
  obtain ⟨others, hrest, hothers⟩ := hnext value.run (unopened ++ more)
  refine ⟨more ++ others, ?_, fun hne => ?_⟩
  · rw [StateT.run_bind, hrun, ← List.append_assoc]
    exact hrest
  -- Whichever of the two actions finds a file missing, the second one gives a failure.
  · by_cases hmissing : more = []
    · exact hothers (by rwa [hmissing] at hne)
    · exact hfailed _ (hmore hmissing)

theorem Looks.bind (haction : Looks tree action value.run)
    (hnext : ∀ a, Runs tree failed' later (next a) (nextValue a).run) :
    Runs tree failed' later (action >>= next) (value >>= nextValue).run :=
  Runs.bind haction hnext fun _ => False.elim

end Actions

/-! ## The disk -/

section Disk

variable (tree : FileTree)

end Disk

/-! ## Looking for figures -/

section Repair

variable (tree : FileTree) (options : FigureOptions) (directory : Text)

end Repair

/-! ## Loading -/

section Loading

variable (tree : FileTree)

end Loading

/-! ## Commands -/

section Commands

variable (tree : FileTree) (settings : Settings) (arguments : List Text)

end Commands

/-! ## Whole runs -/

def session (tree : FileTree) (arguments : List Text) : Outcome × Session :=
  (run tree.liveDisk arguments).run ⟨tree, []⟩

end Command

end LatexIntegrity
