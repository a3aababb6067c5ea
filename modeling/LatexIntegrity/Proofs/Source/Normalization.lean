import LatexIntegrity.Proofs.Text.Lines
import LatexIntegrity.Source.Path

/-!
# Normal paths

Normalization reads a path into a stack of names, with all `..` below all other names, and
writes the stack.  What it writes is read into the same stack, so that a path in normal form
is its own normal form.
-/

namespace LatexIntegrity.Path

variable {rooted : Bool} {path component : Text} {stack : List Text}

/-! ## Stacks of names -/

structure IsName (component : Text) : Prop where
  ne_nil : component ≠ []
  separator_not_mem : separator ∉ component
  ne_current : component ≠ current
  ne_parent : component ≠ parent

/-- A stack in normal form, given last first: names, and `..` below them unless it is rooted. -/
inductive IsNormal (rooted : Bool) : List Text → Prop
  | nil : IsNormal rooted []
  | name {component : Text} {below : List Text} (hname : IsName component)
      (hbelow : IsNormal rooted below) : IsNormal rooted (component :: below)
  | climb {below : List Text} (hrooted : rooted = false)
      (hbelow : ∀ component ∈ below, component = parent) : IsNormal rooted (parent :: below)

theorem IsNormal.of_forall_parent (hrooted : rooted = false)
    (h : ∀ component ∈ stack, component = parent) : IsNormal rooted stack := by
  cases stack with
  | nil => exact .nil
  | cons top below =>
      obtain ⟨rfl, hbelow⟩ := List.forall_mem_cons.mp h
      exact .climb hrooted hbelow

theorem IsNormal.push (h : IsNormal rooted stack)
    (hcomponent : component ≠ [] ∧ separator ∉ component) :
    IsNormal rooted (pushComponent rooted stack component) := by
  unfold pushComponent
  by_cases hcurrent : component = current
  · rwa [if_pos (beq_iff_eq.mpr hcurrent)]
  rw [if_neg (by simpa using hcurrent)]
  by_cases hparent : component = parent
  · rw [if_pos (beq_iff_eq.mpr hparent)]
    cases h with
    | nil =>
        cases rooted with
        | true => exact .nil
        | false => exact .climb rfl (List.forall_mem_nil _)
    | name hname hbelow => simpa [hname.ne_parent] using hbelow
    | climb hrooted hbelow =>
        simpa using IsNormal.climb hrooted (List.forall_mem_cons.mpr ⟨rfl, hbelow⟩)
  · rw [if_neg (by simpa using hparent)]
    exact .name ⟨hcomponent.1, hcomponent.2, hcurrent, hparent⟩ h

theorem isNormal_foldl_push {components : List Text} (h : IsNormal rooted stack)
    (hcomponents : ∀ component ∈ components, component ≠ [] ∧ separator ∉ component) :
    IsNormal rooted (components.foldl (pushComponent rooted) stack) := by
  induction components generalizing stack with
  | nil => exact h
  | cons component rest ih =>
      obtain ⟨hcomponent, hrest⟩ := List.forall_mem_cons.mp hcomponents
      exact ih (h.push hcomponent) hrest

theorem pushComponent_of_isNormal (h : IsNormal rooted (component :: stack)) :
    pushComponent rooted stack component = component :: stack := by
  cases h with
  | name hname hbelow => simp [pushComponent, hname.ne_current, hname.ne_parent]
  | climb hrooted hbelow =>
      have hne : parent ≠ current := by decide
      cases stack with
      | nil => simp [pushComponent, hne, hrooted]
      | cons top below =>
          simp [pushComponent, hne, hbelow top List.mem_cons_self]

theorem IsNormal.tail (h : IsNormal rooted (component :: stack)) : IsNormal rooted stack := by
  cases h with
  | name hname hbelow => exact hbelow
  | climb hrooted hbelow => exact .of_forall_parent hrooted hbelow

theorem foldl_push_reverse (h : IsNormal rooted stack) :
    stack.reverse.foldl (pushComponent rooted) [] = stack := by
  induction stack with
  | nil => rfl
  | cons top below ih =>
      rw [List.reverse_cons, List.foldl_concat, ih h.tail, pushComponent_of_isNormal h]

theorem IsNormal.isComponent (h : IsNormal rooted stack) :
    ∀ component ∈ stack, component ≠ [] ∧ separator ∉ component ∧ component ≠ current := by
  induction h with
  | nil => exact List.forall_mem_nil _
  | name hname hbelow ih =>
      exact List.forall_mem_cons.mpr
        ⟨⟨hname.ne_nil, hname.separator_not_mem, hname.ne_current⟩, ih⟩
  | climb hrooted hbelow =>
      have hparent : parent ≠ [] ∧ separator ∉ parent ∧ parent ≠ current := by decide
      refine List.forall_mem_cons.mpr ⟨hparent, fun component hcomponent => ?_⟩
      rw [hbelow component hcomponent]
      exact hparent

/-! ## Written paths -/

theorem joinComponents_eq_intercalate (components : List Text) :
    joinComponents components = [separator].intercalate components := by
  induction components with
  | nil => rfl
  | cons component rest ih =>
      cases rest with
      | nil => exact (List.intercalate_singleton).symm
      | cons next rest =>
          rw [List.intercalate_cons_cons, ← ih, List.append_assoc]
          rfl

theorem splitAt_joinComponents {pieces : List Text} (hne : pieces ≠ [])
    (h : ∀ piece ∈ pieces, separator ∉ piece) :
    Text.splitAt separator (joinComponents pieces) = pieces := by
  rw [Text.splitAt_eq_splitOn, joinComponents_eq_intercalate,
    List.splitOn_intercalate separator h hne]

/-- The pieces of a written path: the root and a final separator are empty pieces. -/
def pieces (rooted isDirectory : Bool) (components : List Text) : List Text :=
  (if rooted then [[]] else []) ++ components ++ (if isDirectory then [[]] else [])

theorem joinComponents_pieces {components : List Text} (hne : components ≠ [])
    (rooted isDirectory : Bool) :
    joinComponents (pieces rooted isDirectory components) =
      (if rooted then [separator] else []) ++ joinComponents components ++
        (if isDirectory then [separator] else []) := by
  have hroot : ∀ {rest : List Text}, rest ≠ [] →
      joinComponents ([] :: rest) = separator :: joinComponents rest := by
    intro rest hrest
    obtain ⟨next, rest, rfl⟩ := List.exists_cons_of_ne_nil hrest
    rfl
  have hfinal : joinComponents (components ++ [[]]) = joinComponents components ++ [separator] := by
    induction components with
    | nil => exact absurd rfl hne
    | cons component rest ih =>
        cases rest with
        | nil => rfl
        | cons next rest => simpa [joinComponents] using ih (List.cons_ne_nil _ _)
  cases rooted <;> cases isDirectory <;> simp [pieces, hroot, hfinal, hne]

theorem isAbsolute_iff : isAbsolute path = true ↔
    ∃ rest, rest ≠ [] ∧ Text.splitAt separator path = [] :: rest := by
  cases path with
  | nil => simp [isAbsolute, Text.splitAt]
  | cons b rest =>
      obtain ⟨piece, others, hpieces⟩ :=
        List.exists_cons_of_ne_nil (Text.splitAt_ne_nil separator rest)
      rw [Text.splitAt_cons, hpieces]
      by_cases hb : b = separator
      · simp [isAbsolute, hb]
      · simp [isAbsolute, hb]

theorem normalize_eq {top : Text} {below : List Text} (hne : path ≠ [])
    (hstack : (components path).foldl (pushComponent (isAbsolute path)) [] = top :: below) :
    normalize path =
      joinComponents (pieces (isAbsolute path) (endsAsDirectory path && top != parent)
        (top :: below).reverse) := by
  rw [joinComponents_pieces (by simp), normalize, if_neg (by simpa using hne)]
  simp only [hstack]

section Written

variable {top : Text} {below : List Text} {isDirectory : Bool}

theorem splitAt_pieces (h : IsNormal rooted (top :: below)) (isDirectory : Bool) :
    Text.splitAt separator (joinComponents (pieces rooted isDirectory (top :: below).reverse)) =
      pieces rooted isDirectory (top :: below).reverse := by
  refine splitAt_joinComponents (by simp [pieces]) fun piece hpiece => ?_
  simp only [pieces, List.mem_append, List.mem_ite_nil_right, List.mem_singleton,
    List.mem_reverse] at hpiece
  rcases hpiece with (⟨-, rfl⟩ | hpiece) | ⟨-, rfl⟩
  · exact List.not_mem_nil
  · exact (h.isComponent piece hpiece).2.1
  · exact List.not_mem_nil

theorem normalize_joinComponents_pieces (h : IsNormal rooted (top :: below))
    (hdirectory : isDirectory = true → top ≠ parent) :
    normalize (joinComponents (pieces rooted isDirectory (top :: below).reverse)) =
      joinComponents (pieces rooted isDirectory (top :: below).reverse) := by
  have hsplit := splitAt_pieces h isDirectory
  generalize hwritten : joinComponents (pieces rooted isDirectory (top :: below).reverse) = written
    at hsplit ⊢
  have hnames : ∀ component ∈ (top :: below).reverse, component ≠ [] := fun component hcomponent =>
    (h.isComponent component (List.mem_reverse.mp hcomponent)).1
  obtain ⟨hne, -, hcurrent⟩ := h.isComponent top List.mem_cons_self
  have hcomponents : components written = (top :: below).reverse := by
    have hall : (top :: below).reverse.filter (!·.isEmpty) = (top :: below).reverse :=
      List.filter_eq_self.mpr fun component hcomponent => by simpa using hnames component hcomponent
    rw [components, hsplit, pieces, List.filter_append, List.filter_append, hall]
    cases rooted <;> cases isDirectory <;> simp
  have habsolute : isAbsolute written = rooted := by
    obtain ⟨first, rest, hcons⟩ := List.exists_cons_of_ne_nil
      (show (top :: below).reverse ≠ [] by simp)
    have hfirst : first ≠ [] := hnames first (by rw [hcons]; exact List.mem_cons_self)
    rw [Bool.eq_iff_iff, isAbsolute_iff, hsplit, pieces, hcons]
    cases rooted with
    | true => simp
    | false => simp [hfirst]
  -- The final separator is kept only behind a name, never behind a parent directory.
  have hends : (endsAsDirectory written && top != parent) = isDirectory := by
    rw [endsAsDirectory, hsplit, pieces]
    cases isDirectory with
    | true => simpa using hdirectory rfl
    | false =>
        have hlast : ((if rooted then [[]] else []) ++ (top :: below).reverse ++
            (if false then [[]] else []) : List Text).getLast? = some top := by simp
        rw [hlast]
        cases hparent : top == parent <;> simp [bne, hparent, hne, hcurrent]
  have hfold : (components written).foldl (pushComponent (isAbsolute written)) [] =
      top :: below := by rw [habsolute, hcomponents, foldl_push_reverse h]
  have hnonempty : written ≠ [] := by
    rintro rfl
    have hnone : components [] = [] := rfl
    rw [hnone] at hcomponents
    simp at hcomponents
  rw [normalize_eq hnonempty hfold, habsolute, hends, hwritten]

end Written

theorem normalize_normalize (path : Text) : normalize (normalize path) = normalize path := by
  by_cases hpath : path = []
  · rw [hpath]
    rfl
  · have hnormal : IsNormal (isAbsolute path)
        ((components path).foldl (pushComponent (isAbsolute path)) []) := by
      refine isNormal_foldl_push .nil fun component hcomponent => ?_
      obtain ⟨hpiece, hne⟩ := List.mem_filter.mp hcomponent
      exact ⟨by simpa using hne, (Text.of_mem_splitAt hpiece).1⟩
    cases hstack : (components path).foldl (pushComponent (isAbsolute path)) [] with
    | nil =>
        have hnormalize : normalize path = if isAbsolute path then [separator] else current := by
          rw [normalize, if_neg (by simpa using hpath)]
          simp only [hstack]
          cases isAbsolute path <;> rfl
        rw [hnormalize]
        cases isAbsolute path <;> decide
    | cons top below =>
        rw [hstack] at hnormal
        rw [normalize_eq hpath hstack]
        exact normalize_joinComponents_pieces hnormal fun hdirectory => by
          simpa using (Bool.and_eq_true_iff.mp hdirectory).2

end LatexIntegrity.Path
