import LatexIntegrity.Proofs.Text.Lines
import LatexIntegrity.Source.Load

/-!
# Paths without a line feed

What the library makes of a path holds no line feed if the path holds none, and so do the
paths of all registered files.
-/

namespace LatexIntegrity

namespace Path

open Text (IsUnbroken)

variable {path base : Text}

theorem isUnbroken_of_mem_components (h : path.IsUnbroken) {component : Text}
    (hcomponent : component ∈ components path) : component.IsUnbroken :=
  h.of_subset (Text.of_mem_splitAt (List.mem_of_mem_filter hcomponent)).2

theorem isUnbroken_joinComponents {components : List Text}
    (h : ∀ component ∈ components, component.IsUnbroken) :
    IsUnbroken (joinComponents components) := by
  fun_induction joinComponents components with
  | case1 => exact Text.isUnbroken_nil
  | case2 component => exact h component List.mem_cons_self
  | case3 component rest hrest ih =>
      obtain ⟨hcomponent, hothers⟩ := List.forall_mem_cons.mp h
      exact Text.isUnbroken_append.mpr
        ⟨hcomponent, Text.isUnbroken_cons.mpr ⟨by decide, ih hothers⟩⟩

theorem isUnbroken_pushComponent {rooted : Bool} {stack : List Text} {component : Text}
    (hstack : ∀ name ∈ stack, name.IsUnbroken) (hcomponent : component.IsUnbroken) :
    ∀ name ∈ pushComponent rooted stack component, name.IsUnbroken := by
  have hparent : parent.IsUnbroken := by decide
  unfold pushComponent
  split
  · exact hstack
  · split
    · cases stack with
      | nil =>
          cases rooted with
          | true => exact List.forall_mem_nil _
          | false => exact List.forall_mem_singleton.mpr hparent
      | cons top below =>
          dsimp only
          split
          · exact List.forall_mem_cons.mpr ⟨hparent, hstack⟩
          · exact (List.forall_mem_cons.mp hstack).2
    · exact List.forall_mem_cons.mpr ⟨hcomponent, hstack⟩

theorem isUnbroken_foldl_pushComponent {rooted : Bool} {stack components : List Text}
    (hstack : ∀ name ∈ stack, name.IsUnbroken)
    (hcomponents : ∀ component ∈ components, component.IsUnbroken) :
    ∀ name ∈ components.foldl (pushComponent rooted) stack, name.IsUnbroken := by
  induction components generalizing stack with
  | nil => exact hstack
  | cons component rest ih =>
      obtain ⟨hcomponent, hrest⟩ := List.forall_mem_cons.mp hcomponents
      exact ih (isUnbroken_pushComponent hstack hcomponent) hrest

theorem isUnbroken_normalize (h : path.IsUnbroken) : IsUnbroken (normalize path) := by
  have hstack := @isUnbroken_foldl_pushComponent (isAbsolute path) [] _ (List.forall_mem_nil _)
    fun component => isUnbroken_of_mem_components h
  have hseparator : IsUnbroken [separator] := by decide
  unfold normalize
  split
  · exact Text.isUnbroken_nil
  · dsimp only
    generalize (components path).foldl (pushComponent (isAbsolute path)) [] = stack at hstack ⊢
    cases stack with
    | nil =>
        have hcurrent : current.IsUnbroken := by decide
        cases isAbsolute path with
        | true => exact hseparator
        | false => exact hcurrent
    | cons top below =>
        dsimp only
        rw [Text.isUnbroken_append, Text.isUnbroken_append]
        refine ⟨⟨?_, isUnbroken_joinComponents fun name hname =>
          hstack name (List.mem_reverse.mp hname)⟩, ?_⟩
        · split
          · exact hseparator
          · exact Text.isUnbroken_nil
        · split
          · exact hseparator
          · exact Text.isUnbroken_nil

theorem isUnbroken_resolve (hbase : base.IsUnbroken) (h : path.IsUnbroken) :
    IsUnbroken (resolve base path) := by
  unfold resolve
  split
  · exact h
  · split
    · exact Text.isUnbroken_append.mpr ⟨hbase, h⟩
    · exact Text.isUnbroken_append.mpr ⟨hbase, Text.isUnbroken_cons.mpr ⟨by decide, h⟩⟩

theorem isUnbroken_directory (h : path.IsUnbroken) : IsUnbroken (directory path) := by
  unfold directory
  dsimp only
  split
  · decide
  · exact (h.trimEnd _).trimEnd _

theorem isUnbroken_withExtension {newExtension : Text} (hextension : newExtension.IsUnbroken)
    (h : path.IsUnbroken) : IsUnbroken (withExtension newExtension path) :=
  Text.isUnbroken_append.mpr ⟨h.take _, hextension⟩

theorem isUnbroken_collapseSeparators (h : path.IsUnbroken) :
    IsUnbroken (collapseSeparators path) := by
  fun_induction collapseSeparators path with
  | case1 => exact h
  | case2 b rest hrun ih => exact ih (Text.isUnbroken_cons.mp h).2
  | case3 b rest hrun ih =>
      obtain ⟨hb, hrest⟩ := Text.isUnbroken_cons.mp h
      exact Text.isUnbroken_cons.mpr ⟨hb, ih hrest⟩

end Path

namespace Registry

def IsUnbroken (registry : Registry) : Prop := ∀ file ∈ registry.files, file.path.IsUnbroken

theorem isUnbroken_empty : empty.IsUnbroken := List.forall_mem_nil _

variable {registry : Registry}

theorem IsUnbroken.add (h : registry.IsUnbroken) {path : Text} (hpath : path.IsUnbroken)
    (role : FileRole) : (registry.add path role).1.IsUnbroken := by
  unfold Registry.add
  dsimp only
  split
  · exact h
  · exact List.forall_mem_append.mpr
      ⟨h, List.forall_mem_singleton.mpr (Path.isUnbroken_normalize hpath)⟩

theorem IsUnbroken.path (h : registry.IsUnbroken) (id : UInt32) :
    (registry.path id).IsUnbroken := by
  unfold Registry.path Registry.file?
  split
  · exact Text.isUnbroken_nil
  · next index _ =>
      cases hfile : registry.files[index]? with
      | none => exact Text.isUnbroken_nil
      | some file => exact h file (List.mem_of_getElem? hfile)

end Registry

/-! ## Loading -/

theorem Disk.isUnbroken_directoryOf {disk : Disk Id} {path : Text}
    (hdirectory : disk.workingDirectory.IsUnbroken) (hpath : path.IsUnbroken) :
    (disk.directoryOf path).IsUnbroken :=
  Path.isUnbroken_directory (Path.isUnbroken_resolve hdirectory hpath)

def LoadError.path : LoadError → Text
  | .cannotOpen path | .tooLarge path | .outOfMemory path | .tooManyFiles path => path

theorem LoadError.isUnbroken_message {error : LoadError} (h : error.path.IsUnbroken) :
    error.message.IsUnbroken := by
  cases error with
  | cannotOpen | outOfMemory => exact Text.isUnbroken_append.mpr ⟨by decide, h⟩
  | tooLarge =>
      exact Text.isUnbroken_append.mpr ⟨Text.isUnbroken_append.mpr ⟨by decide, h⟩, by decide⟩
  | tooManyFiles => exact Text.isUnbroken_append.mpr ⟨by decide, Path.isUnbroken_normalize h⟩

section Load

variable {disk : Disk Id} {registry registry' : Registry} {path : Text} {role : FileRole}
variable {error : LoadError}

theorem Registry.register_spec (registry : Registry) (path : Text) (role : FileRole) :
    match registry.register path role with
    | .error error => error = .tooManyFiles path
    | .ok registered => registered = registry.add path role := by
  unfold register add?
  split_ifs <;> rfl

theorem Registry.load_spec (registry : Registry) (path : Text) (role : FileRole)
    (file : OpenedFile) :
    match registry.load path role file with
    | .error error => error.path = path
    | .ok (registry', loaded) =>
        registry.add path role = (registry', loaded.file) ∧
          loaded.text = Utf8.repair file.content := by
  have hregister := registry.register_spec path role
  unfold load
  split_ifs
  · rfl
  · rfl
  · cases hresult : registry.register path role with
    | error error =>
        rw [hresult] at hregister
        rw [hregister]
        rfl
    | ok registered =>
        rw [hresult] at hregister
        exact ⟨hregister.symm, rfl⟩

theorem readText_spec (disk : Disk Id) (registry : Registry) (path : Text) (role : FileRole) :
    match (readText disk registry path role).run with
    | .error error => error.path = path
    | .ok (registry', loaded) =>
        registry.add path role = (registry', loaded.file) ∧
          ∃ file, (disk.read path).run = some file ∧ loaded.text = Utf8.repair file.content := by
  simp only [readText, Id.run, bind, pure]
  cases disk.read path with
  | none => rfl
  | some file =>
      have hload := registry.load_spec path role file
      dsimp only
      generalize registry.load path role file = result at hload ⊢
      cases result with
      | error error => exact hload
      | ok loaded => exact ⟨hload.1, file, rfl, hload.2⟩

theorem readDocument_spec (disk : Disk Id) (registry : Registry) (path : Text)
    (role : FileRole) :
    match (readDocument disk registry path role).run with
    | .error error => error.path = path
    | .ok (registry', document) =>
        registry.add path role = (registry', document.file) ∧ document.path = path ∧
          ∃ file, (disk.read path).run = some file ∧
            document.text = Utf8.repair file.content := by
  have hread := readText_spec disk registry path role
  simp only [Id.run] at hread ⊢
  simp only [readDocument, bind, pure]
  generalize readText disk registry path role = result at hread ⊢
  cases result with
  | error error => exact hread
  | ok loaded => exact ⟨hread.1, rfl, hread.2⟩

theorem isUnbroken_of_readText_error (hpath : path.IsUnbroken)
    (h : (readText disk registry path role).run = .error error) : error.message.IsUnbroken := by
  have hread := readText_spec disk registry path role
  rw [h] at hread
  exact LoadError.isUnbroken_message (by rwa [hread])

theorem isUnbroken_of_readDocument_error (hpath : path.IsUnbroken)
    (h : (readDocument disk registry path role).run = .error error) :
    error.message.IsUnbroken := by
  have hread := readDocument_spec disk registry path role
  rw [h] at hread
  exact LoadError.isUnbroken_message (by rwa [hread])

theorem Registry.IsUnbroken.of_readText {loaded : LoadedText} (hregistry : registry.IsUnbroken)
    (hpath : path.IsUnbroken)
    (h : (readText disk registry path role).run = .ok (registry', loaded)) :
    registry'.IsUnbroken := by
  have hread := readText_spec disk registry path role
  rw [h] at hread
  have hadd := hregistry.add hpath role
  rwa [hread.1] at hadd

theorem Registry.IsUnbroken.of_readDocument {document : Document}
    (hregistry : registry.IsUnbroken) (hpath : path.IsUnbroken)
    (h : (readDocument disk registry path role).run = .ok (registry', document)) :
    registry'.IsUnbroken ∧ document.path.IsUnbroken := by
  have hread := readDocument_spec disk registry path role
  rw [h] at hread
  have hadd := hregistry.add hpath role
  rw [hread.1] at hadd
  exact ⟨hadd, by rwa [hread.2.1]⟩

end Load

end LatexIntegrity
