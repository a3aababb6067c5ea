import Mathlib.Data.List.Induction
import LatexIntegrity.Proofs.Source.Normalization
import LatexIntegrity.Source.Registry

/-!
# Runs of registrations

The numbers that a registry gives out and the normal forms of the paths that it is given
determine each other.  Numbers are given out one by one, in the order in which the files are
first named, and what is known of a number does not change.
-/

namespace LatexIntegrity.Registry

/-- A path and the role that the file is to have, unless it is registered already. -/
structure Registration where
  path : Text
  role : FileRole
  deriving DecidableEq, Repr

def Registration.name (registration : Registration) : Text := Path.normalize registration.path

/-- The registry after some registrations, and the number that each of them gives. -/
def addAll (registry : Registry) : List Registration → Registry × List UInt32
  | [] => (registry, [])
  | registration :: rest =>
      let (registry, id) := registry.add registration.path registration.role
      let (registry, ids) := registry.addAll rest
      (registry, id :: ids)

def paths (registry : Registry) : List Text := registry.files.map (·.path)

variable {registry : Registry} {path other : Text} {role : FileRole} {id : UInt32}
  {registration : Registration} {registrations : List Registration} {ids : List UInt32}

theorem length_paths (registry : Registry) : registry.paths.length = registry.files.length :=
  List.length_map _

/-! ## One registration -/

theorem index?_eq (registry : Registry) (name : Text) :
    registry.index? name =
      if name ∈ registry.paths then some (registry.paths.idxOf name) else none := by
  have hindex : registry.index? name = registry.paths.findIdx? (· == name) := by
    rw [paths, List.findIdx?_map]
    rfl
  rw [hindex]
  split
  · next hmem =>
      exact List.findIdx?_eq_some_iff_findIdx_eq.mpr ⟨List.idxOf_lt_length_iff.mpr hmem, rfl⟩
  · next hmem =>
      refine List.findIdx?_eq_none_iff.mpr fun other hother => ?_
      rw [beq_eq_false_iff_ne]
      rintro rfl
      exact hmem hother

theorem find_of_mem (h : Path.normalize path ∈ registry.paths) :
    registry.find path = (registry.paths.idxOf (Path.normalize path) + 1).toUInt32 := by
  rw [find, index?_eq, if_pos h]

theorem find_of_not_mem (h : Path.normalize path ∉ registry.paths) : registry.find path = 0 := by
  rw [find, index?_eq, if_neg h]

theorem find_congr (h : Path.normalize path = Path.normalize other) (registry : Registry) :
    registry.find path = registry.find other := by
  rw [find, find, h]

theorem add_of_mem (h : Path.normalize path ∈ registry.paths) (role : FileRole) :
    registry.add path role = (registry, registry.find path) := by
  rw [find_of_mem h, add]
  simp only [index?_eq, if_pos h]

theorem add_of_not_mem (h : Path.normalize path ∉ registry.paths) (role : FileRole) :
    registry.add path role =
      (⟨registry.files ++ [⟨Path.normalize path, role⟩]⟩,
        (registry.files.length + 1).toUInt32) := by
  rw [add]
  simp only [index?_eq, if_neg h]

theorem add?_eq_some (h : (registry.add path role).1.files.length < capacity) :
    registry.add? path role = some (registry.add path role) := by
  rw [add?, if_neg]
  rw [index?_eq, Bool.and_eq_true, not_and, decide_eq_true_eq, Nat.not_le]
  intro hnone
  have hnew : Path.normalize path ∉ registry.paths := by
    intro hmem
    rw [if_pos hmem] at hnone
    cases hnone
  rw [add_of_not_mem hnew] at h
  simpa using h

theorem files_prefix_add (registry : Registry) (path : Text) (role : FileRole) :
    registry.files <+: (registry.add path role).1.files := by
  by_cases h : Path.normalize path ∈ registry.paths
  · simp only [add_of_mem h, List.prefix_rfl]
  · rw [add_of_not_mem h]
    exact List.prefix_append _ _

theorem find_of_prefix {later : Registry} (hkept : registry.files <+: later.files)
    (h : Path.normalize path ∈ registry.paths) : later.find path = registry.find path := by
  obtain ⟨others, hothers⟩ := hkept
  have hpaths : later.paths = registry.paths ++ others.map (·.path) := by
    rw [paths, ← hothers, List.map_append, paths]
  rw [find_of_mem h, find_of_mem (by rw [hpaths]; exact List.mem_append_left _ h), hpaths,
    List.idxOf_append_of_mem h]

theorem file?_of_prefix {later : Registry} (hkept : registry.files <+: later.files)
    (hid : id.toNat ≤ registry.files.length) : later.file? id = registry.file? id := by
  unfold file?
  cases hindex : id.toNat with
  | zero => rfl
  | succ index =>
      have hlt : index < registry.files.length := by omega
      obtain ⟨others, hothers⟩ := hkept
      dsimp only
      rw [← hothers, List.getElem?_append_left hlt]

theorem toNat_ofNat_of_le {number : Nat} (h : number < capacity) :
    number.toUInt32.toNat = number := by
  rw [Nat.toUInt32_eq, UInt32.toNat_ofNat']
  exact Nat.mod_eq_of_lt h

theorem toNat_find (hmem : Path.normalize path ∈ registry.paths)
    (hlength : registry.files.length < capacity) :
    (registry.find path).toNat = registry.paths.idxOf (Path.normalize path) + 1 := by
  have hlt := List.idxOf_lt_length_iff.mpr hmem
  rw [length_paths] at hlt
  rw [find_of_mem hmem, toNat_ofNat_of_le (by omega)]

theorem file?_find (hmem : Path.normalize path ∈ registry.paths)
    (hlength : registry.files.length < capacity) :
    ∃ file ∈ registry.files, registry.file? (registry.find path) = some file ∧
      file.path = Path.normalize path := by
  have hlt := List.idxOf_lt_length_iff.mpr hmem
  have hindex := hlt
  rw [length_paths] at hindex
  refine ⟨registry.files[registry.paths.idxOf (Path.normalize path)], List.getElem_mem hindex,
    ?_, ?_⟩
  · rw [file?, toNat_find hmem hlength]
    exact List.getElem?_eq_getElem hindex
  · exact (List.getElem_map _).symm.trans (List.getElem_idxOf hlt)

/-! ## Runs -/

/-- What a registry and the numbers given out have recorded of the registrations. -/
structure Records (registrations : List Registration) (registry : Registry)
    (ids : List UInt32) : Prop where
  /-- The files are in the order in which they are first named. -/
  paths_eq : registry.paths = (registrations.map (·.name)).eraseDups
  ids_eq : ids = registrations.map (registry.find ·.path)
  /-- The role of a file is that of the first registration. -/
  role : ∀ file ∈ registry.files,
    (registrations.find? (·.name == file.path)).map (·.role) = some file.role

theorem records_empty : Records [] empty [] where
  paths_eq := by simp [paths, empty]
  ids_eq := rfl
  role := List.forall_mem_nil _

theorem eraseDups_concat {α : Type} [BEq α] [LawfulBEq α] (list : List α) (a : α) :
    (list ++ [a]).eraseDups = if a ∈ list then list.eraseDups else list.eraseDups ++ [a] := by
  rw [List.eraseDups_append, List.cons_removeAll]
  by_cases h : a ∈ list
  · simp [h]
  · simp [h, List.eraseDups_cons]

namespace Records

theorem mem_paths_iff (h : Records registrations registry ids) {name : Text} :
    name ∈ registry.paths ↔ ∃ registration ∈ registrations, registration.name = name := by
  rw [h.paths_eq, List.mem_eraseDups, List.mem_map]

theorem role_concat (h : Records registrations registry ids) (registration : Registration) :
    ∀ file ∈ registry.files,
      ((registrations ++ [registration]).find? (·.name == file.path)).map (·.role) =
        some file.role := by
  intro file hfile
  have hrole := h.role file hfile
  obtain ⟨first, hfirst, -⟩ := Option.map_eq_some_iff.mp hrole
  rw [List.find?_append, hfirst, Option.some_or, ← hfirst, hrole]

theorem add_known (h : Records registrations registry ids)
    (hmem : registration.name ∈ registry.paths) :
    Records (registrations ++ [registration]) registry
      (ids ++ [registry.find registration.path]) := by
  refine ⟨?_, ?_, h.role_concat registration⟩
  · have hnamed : registration.name ∈ registrations.map (·.name) := by
      rwa [h.paths_eq, List.mem_eraseDups] at hmem
    rw [List.map_append, List.map_singleton, eraseDups_concat, if_pos hnamed, h.paths_eq]
  · rw [List.map_append, ← h.ids_eq]
    rfl

theorem add_new (h : Records registrations registry ids)
    (hmem : registration.name ∉ registry.paths) :
    Records (registrations ++ [registration])
      ⟨registry.files ++ [⟨registration.name, registration.role⟩]⟩
      (ids ++ [(registry.files.length + 1).toUInt32]) := by
  generalize hlater : (⟨registry.files ++ [⟨registration.name, registration.role⟩]⟩ : Registry) =
    later
  have hfiles : later.files = registry.files ++ [⟨registration.name, registration.role⟩] := by
    rw [← hlater]
  have hpaths : later.paths = registry.paths ++ [registration.name] := by
    rw [paths, hfiles, List.map_append]
    rfl
  refine ⟨?_, ?_, ?_⟩
  · have hunnamed : registration.name ∉ registrations.map (·.name) := by
      rwa [h.paths_eq, List.mem_eraseDups] at hmem
    rw [List.map_append, List.map_singleton, eraseDups_concat, if_neg hunnamed, hpaths,
      h.paths_eq]
  · have hnew : later.find registration.path = (registry.files.length + 1).toUInt32 := by
      have hpath : Path.normalize registration.path ∈ later.paths := by
        rw [hpaths]
        exact List.mem_append_right _ List.mem_cons_self
      rw [find_of_mem hpath, hpaths]
      change ((registry.paths ++ [registration.name]).idxOf registration.name + 1).toUInt32 = _
      rw [List.idxOf_append_of_notMem hmem, List.idxOf_cons_self, length_paths, Nat.add_zero]
    -- The files in front keep their places, so that the earlier numbers are found again.
    have hold : registrations.map (later.find ·.path) = ids := by
      rw [h.ids_eq]
      refine List.map_congr_left fun earlier hearlier => ?_
      exact find_of_prefix (hfiles ▸ List.prefix_append _ _)
        (h.mem_paths_iff.mpr ⟨earlier, hearlier, rfl⟩)
    rw [List.map_append, List.map_singleton, hold, hnew]
  · have hnone : registrations.find? (·.name == registration.name) = none := by
      refine List.find?_eq_none.mpr fun earlier hearlier hname => ?_
      exact hmem (h.mem_paths_iff.mpr ⟨earlier, hearlier, beq_iff_eq.mp hname⟩)
    rw [hfiles]
    refine List.forall_mem_append.mpr ⟨h.role_concat registration, List.forall_mem_singleton.mpr ?_⟩
    rw [List.find?_append, hnone]
    simp

theorem add (h : Records registrations registry ids) (registration : Registration) :
    Records (registrations ++ [registration])
      (registry.add registration.path registration.role).1
      (ids ++ [(registry.add registration.path registration.role).2]) := by
  by_cases hmem : Path.normalize registration.path ∈ registry.paths
  · rw [add_of_mem hmem]
    exact h.add_known hmem
  · rw [add_of_not_mem hmem]
    exact h.add_new hmem

end Records

theorem addAll_concat (registry : Registry) (registrations : List Registration)
    (registration : Registration) :
    registry.addAll (registrations ++ [registration]) =
      (((registry.addAll registrations).1.add registration.path registration.role).1,
        (registry.addAll registrations).2 ++
          [((registry.addAll registrations).1.add registration.path registration.role).2]) := by
  induction registrations generalizing registry with
  | nil => rfl
  | cons first rest ih =>
      rw [List.cons_append, addAll, addAll]
      dsimp only
      rw [ih]
      rfl

theorem addAll_append (registry : Registry) (before after : List Registration) :
    (registry.addAll (before ++ after)).1 = ((registry.addAll before).1.addAll after).1 := by
  induction before generalizing registry with
  | nil => rfl
  | cons first rest ih => exact ih _

theorem files_prefix_addAll (registry : Registry) (registrations : List Registration) :
    registry.files <+: (registry.addAll registrations).1.files := by
  induction registrations generalizing registry with
  | nil => exact List.prefix_rfl
  | cons first rest ih =>
      exact (files_prefix_add registry first.path first.role).trans (ih _)

theorem records_addAll (registrations : List Registration) :
    Records registrations (empty.addAll registrations).1 (empty.addAll registrations).2 := by
  induction registrations using List.reverseRecOn with
  | nil => exact records_empty
  | append_singleton registrations registration ih =>
      rw [addAll_concat]
      exact ih.add registration

theorem eraseDups_ids (h : (empty.addAll registrations).1.files.length < capacity) :
    ((empty.addAll registrations).2.map (·.toNat)).eraseDups =
      List.range' 1 (empty.addAll registrations).1.files.length := by
  induction registrations using List.reverseRecOn with
  | nil => simp [addAll, empty]
  | append_singleton registrations registration ih =>
      have hrecords := records_addAll registrations
      have hgrown := files_prefix_add (empty.addAll registrations).1 registration.path
        registration.role
      rw [addAll_concat] at h ⊢
      generalize empty.addAll registrations = run at h ih hrecords hgrown ⊢
      obtain ⟨registry, ids⟩ := run
      have hids := ih (Nat.lt_of_le_of_lt hgrown.length_le h)
      dsimp only at hids hrecords h ⊢
      rw [List.map_append, List.map_singleton, eraseDups_concat, hids]
      by_cases hmem : Path.normalize registration.path ∈ registry.paths
      · obtain ⟨earlier, hearlier, hname⟩ := hrecords.mem_paths_iff.mp hmem
        have hknown : registry.find registration.path ∈ ids := by
          rw [hrecords.ids_eq]
          exact List.mem_map.mpr ⟨earlier, hearlier, find_congr hname registry⟩
        rw [add_of_mem hmem, if_pos (List.mem_map_of_mem hknown)]
      · rw [add_of_not_mem hmem] at h ⊢
        rw [List.length_append, List.length_singleton] at h ⊢
        have hnumber : registry.files.length + 1 ∉ ids.map (·.toNat) := by
          rw [← List.mem_eraseDups, hids, List.mem_range'_1]
          omega
        rw [toNat_ofNat_of_le h, if_neg hnumber, List.range'_1_concat, Nat.add_comm 1]

/-! ## Numbers and paths -/

namespace Records

variable (h : Records registrations registry ids) {given : Registration × UInt32}
include h

theorem of_mem_zip (hgiven : given ∈ registrations.zip ids) :
    given.2 = registry.find given.1.path ∧ given.1.name ∈ registry.paths := by
  have hzip : registrations.zip ids =
      registrations.map fun registration => (registration, registry.find registration.path) := by
    have hpair := @List.zip_map' Registration _ _ id (registry.find ·.path) registrations
    rwa [List.map_id, ← h.ids_eq] at hpair
  rw [hzip] at hgiven
  obtain ⟨registration, hmem, rfl⟩ := List.mem_map.mp hgiven
  exact ⟨rfl, h.mem_paths_iff.mpr ⟨registration, hmem, rfl⟩⟩

theorem exists_of_mem_ids (hid : id ∈ ids) :
    ∃ path, Path.normalize path ∈ registry.paths ∧ registry.find path = id := by
  rw [h.ids_eq] at hid
  obtain ⟨registration, hmem, rfl⟩ := List.mem_map.mp hid
  exact ⟨registration.path, h.mem_paths_iff.mpr ⟨registration, hmem, rfl⟩, rfl⟩

theorem toNat_le (hlength : registry.files.length < capacity) (hid : id ∈ ids) :
    id.toNat ≤ registry.files.length := by
  obtain ⟨path, hmem, rfl⟩ := h.exists_of_mem_ids hid
  have hlt := List.idxOf_lt_length_iff.mpr hmem
  rw [length_paths] at hlt
  rw [toNat_find hmem hlength]
  exact hlt

theorem file_of_mem_zip (hlength : registry.files.length < capacity)
    (hgiven : given ∈ registrations.zip ids) :
    registry.path given.2 = given.1.name ∧
      registry.role? given.2 =
        (registrations.find? (·.name == given.1.name)).map (·.role) := by
  obtain ⟨hid, hmem⟩ := h.of_mem_zip hgiven
  obtain ⟨file, hfile, hget, hpath⟩ := file?_find hmem hlength
  have hrole := h.role file hfile
  rw [hpath] at hrole
  rw [hid, Registry.path, role?, hget]
  exact ⟨hpath, hrole.symm⟩

end Records

theorem countOf_sum (registry : Registry) :
    registry.countOf .document + registry.countOf .input + registry.countOf .log =
      registry.files.length := by
  obtain ⟨files⟩ := registry
  unfold countOf
  induction files with
  | nil => rfl
  | cons file rest ih =>
      simp only [List.countP_cons, List.length_cons] at ih ⊢
      cases file.role <;> simp <;> omega

theorem find_path_find (h : Path.normalize path ∈ registry.paths)
    (hlength : registry.files.length < capacity) :
    registry.find (registry.path (registry.find path)) = registry.find path := by
  obtain ⟨file, -, hget, hpath⟩ := file?_find h hlength
  rw [Registry.path, hget, Option.map_some, Option.getD_some, hpath]
  exact find_congr (Path.normalize_normalize path) registry

/--
After any registrations of less than 2^32 distinct files, the numbers given out are 1, 2, …
in the order in which the files are first named, and two of them are the same exactly if the
normalized paths are.  A number keeps its path and the role of the first registration, and a
search for a path finds the number of its normal form.  None of the registrations is refused.
-/
theorem addAll_bijection (registrations : List Registration)
    (hcapacity : (registrations.map (·.name)).eraseDups.length < capacity) :
    let registry := (empty.addAll registrations).1
    let ids := (empty.addAll registrations).2
    registry.paths = (registrations.map (·.name)).eraseDups ∧
      (ids.map (·.toNat)).eraseDups = List.range' 1 registry.files.length ∧
      ids.length = registrations.length ∧
      (∀ first ∈ registrations.zip ids, ∀ second ∈ registrations.zip ids,
        first.2 = second.2 ↔ first.1.name = second.1.name) ∧
      (∀ given ∈ registrations.zip ids,
        registry.path given.2 = given.1.name ∧
          registry.role? given.2 =
            (registrations.find? (·.name == given.1.name)).map (·.role)) ∧
      (∀ before after, before ++ after = registrations → ∀ id ∈ (empty.addAll before).2,
        registry.path id = (empty.addAll before).1.path id ∧
          registry.role? id = (empty.addAll before).1.role? id) ∧
      (∀ path, (∀ given ∈ registrations.zip ids, given.1.name = Path.normalize path →
          registry.find path = given.2) ∧
        (Path.normalize path ∉ registrations.map (·.name) → registry.find path = 0)) ∧
      (∀ id ∈ ids, registry.find (registry.path id) = id) ∧
      registry.countOf .document + registry.countOf .input + registry.countOf .log =
        registry.files.length ∧
      ∀ before registration after, before ++ registration :: after = registrations →
        (empty.addAll before).1.add? registration.path registration.role =
          some ((empty.addAll before).1.add registration.path registration.role) := by
  intro registry ids
  have hrecords := records_addAll registrations
  have hlength : registry.files.length < capacity := by
    rwa [← length_paths, hrecords.paths_eq]
  refine ⟨hrecords.paths_eq, eraseDups_ids hlength, ?_, ?_, fun given hgiven =>
    hrecords.file_of_mem_zip hlength hgiven, ?_, fun path => ⟨?_, ?_⟩, ?_, countOf_sum registry, ?_⟩
  · rw [show ids = _ from hrecords.ids_eq, List.length_map]
  · intro first hfirst second hsecond
    constructor
    · intro hsame
      rw [← (hrecords.file_of_mem_zip hlength hfirst).1,
        ← (hrecords.file_of_mem_zip hlength hsecond).1, hsame]
    · intro hsame
      rw [(hrecords.of_mem_zip hfirst).1, (hrecords.of_mem_zip hsecond).1]
      exact find_congr hsame registry
  · -- Registrations only add files at the end, so earlier numbers keep their meaning.
    intro before after hsplit id hid
    have hkept : (empty.addAll before).1.files <+: registry.files := by
      have hgrown := files_prefix_addAll (empty.addAll before).1 after
      rwa [← addAll_append, hsplit] at hgrown
    have hle := (records_addAll before).toNat_le
      (Nat.lt_of_le_of_lt hkept.length_le hlength) hid
    have hfile := file?_of_prefix hkept hle
    exact ⟨by rw [Registry.path, Registry.path, hfile], by rw [role?, role?, hfile]⟩
  · intro given hgiven hname
    rw [(hrecords.of_mem_zip hgiven).1]
    exact (find_congr hname registry).symm
  · intro hunnamed
    refine find_of_not_mem ?_
    rwa [show registry.paths = _ from hrecords.paths_eq, List.mem_eraseDups]
  · intro id hid
    obtain ⟨path, hmem, rfl⟩ := hrecords.exists_of_mem_ids hid
    exact find_path_find hmem hlength
  · intro before registration after hsplit
    have hkept : ((empty.addAll before).1.add registration.path registration.role).1.files <+:
        registry.files := by
      have hgrown := files_prefix_addAll (empty.addAll (before ++ [registration])).1 after
      rwa [← addAll_append, List.append_assoc, List.singleton_append, hsplit, addAll_concat]
        at hgrown
    exact add?_eq_some (Nat.lt_of_le_of_lt hkept.length_le hlength)

/-- One file under three spellings, and another one. -/
theorem addAll_bijection_spellings :
    let registrations : List Registration :=
      [⟨"a//b.tex", .input⟩, ⟨"./c.log", .log⟩, ⟨"a/./b.tex", .document⟩, ⟨"d/../a/b.tex", .log⟩]
    (registrations.map (·.name)).eraseDups.length < capacity ∧
      (empty.addAll registrations).2 = [1, 2, 1, 1] ∧
      ((empty.addAll registrations).2.map (·.toNat)).eraseDups = [1, 2] ∧
      (empty.addAll registrations).1.role? 1 = some .input := by
  intro registrations
  have hcapacity : (registrations.map (·.name)).eraseDups.length < capacity := by decide +kernel
  have hids : (empty.addAll registrations).2 = [1, 2, 1, 1] := by decide +kernel
  obtain ⟨-, hnumbers, -, -, hfiles, -⟩ := addAll_bijection registrations hcapacity
  refine ⟨hcapacity, hids, hnumbers.trans (by decide +kernel), ?_⟩
  have hfirst := hfiles (⟨"a//b.tex", .input⟩, 1) (by rw [hids]; decide)
  exact hfirst.2.trans (by decide +kernel)

end LatexIntegrity.Registry
