import Mathlib.Data.List.Induction
import LatexIntegrity.Command.Run
import LatexIntegrity.Proofs.Settings.Values
import LatexIntegrity.Source.FileTree

/-!
# The last valid assignment

Each setting has the value of the last line that assigns it a valid one, whatever the other
lines of the settings files are.  A line counts in the section of its own file that it stands
in, and a setting that no line assigns keeps its default.
-/

namespace LatexIntegrity

/-! ## The last of some values -/

section Last

variable {α β : Type} {has : α → β → Prop} {initial b : β} {list : List α} {read : α → Option β}

/-- The value of the last element that has one, or else an initial value. -/
inductive IsLast (has : α → β → Prop) (initial : β) : List α → β → Prop
  | initial {list : List α} (hnone : ∀ a ∈ list, ∀ b, ¬has a b) : IsLast has initial list initial
  | last {before : List α} {a : α} {after : List α} {b : β} (hhas : has a b)
      (hafter : ∀ later ∈ after, ∀ b, ¬has later b) : IsLast has initial (before ++ a :: after) b

theorem filterMap_eq_nil_of_not_has (hread : ∀ a b, has a b ↔ read a = some b)
    (h : ∀ a ∈ list, ∀ b, ¬has a b) : list.filterMap read = [] := by
  refine List.filterMap_eq_nil_iff.mpr fun a ha => ?_
  rw [Option.eq_none_iff_forall_ne_some]
  exact fun b hb => h a ha b ((hread a b).mpr hb)

theorem getLastD_append (first second : List α) (a : α) :
    (first ++ second).getLastD a = second.getLastD (first.getLastD a) := by
  rw [List.getLastD_eq_getLast?, List.getLastD_eq_getLast?, List.getLastD_eq_getLast?,
    List.getLast?_append]
  cases second.getLast? <;> rfl

theorem isLast_iff (hread : ∀ a b, has a b ↔ read a = some b) :
    IsLast has initial list b ↔ (list.filterMap read).getLastD initial = b := by
  constructor
  · rintro (⟨hnone⟩ | ⟨hhas, hafter⟩)
    · rw [filterMap_eq_nil_of_not_has hread hnone, List.getLastD_nil]
    · rw [List.filterMap_append, List.filterMap_cons_some ((hread _ _).mp hhas),
        filterMap_eq_nil_of_not_has hread hafter, getLastD_append]
      rfl
  · rintro rfl
    induction list using List.reverseRecOn with
    | nil => exact .initial (List.forall_mem_nil _)
    | append_singleton list a ih =>
        rw [List.filterMap_append, getLastD_append]
        cases ha : read a with
        | some b =>
            rw [List.filterMap_cons_some ha]
            exact .last ((hread a b).mpr ha) (List.forall_mem_nil _)
        | none =>
            have hnone : ∀ b, ¬has a b := fun b hb => by
              rw [(hread a b).mp hb] at ha
              cases ha
            rw [List.filterMap_cons_none ha, List.filterMap_nil, List.getLastD_nil]
            generalize (list.filterMap read).getLastD initial = b at ih ⊢
            cases ih with
            | initial hbefore =>
                exact .initial (List.forall_mem_append.mpr
                  ⟨hbefore, List.forall_mem_singleton.mpr hnone⟩)
            | last hhas hafter =>
                rw [List.append_assoc, List.cons_append]
                exact .last hhas (List.forall_mem_append.mpr
                  ⟨hafter, List.forall_mem_singleton.mpr hnone⟩)

theorem IsLast.eq_or_exists (h : IsLast has initial list b) :
    b = initial ∨ ∃ a ∈ list, has a b := by
  cases h with
  | initial hnone => exact .inl rfl
  | last hlast hafter => exact .inr ⟨_, List.mem_append_right _ List.mem_cons_self, hlast⟩

end Last

namespace Settings

/-! ## Lines -/

structure FileLine where
  before : List Text
  text : Text
  deriving DecidableEq, Repr

def fileLinesFrom (before : List Text) : List Text → List FileLine
  | [] => []
  | line :: rest => ⟨before, line⟩ :: fileLinesFrom (before ++ [line]) rest

def fileLines (content : Text) : List FileLine := fileLinesFrom [] (Text.lines content)

def Opens (line heading : Text) : Prop :=
  ∃ name, Text.Pads (('[' : UInt8) :: name ++ [(']' : UInt8)]) line ∧ Ascii.lower name = heading

def Assigns (line key value : Text) : Prop :=
  ∃ left right name, Text.Pads (left ++ ('=' : UInt8) :: right) line ∧ ('=' : UInt8) ∉ left ∧
    isComment (left ++ ('=' : UInt8) :: right) = false ∧ (∀ heading, ¬Opens line heading) ∧
    Text.Pads name left ∧ Ascii.lower name = key ∧ Text.Pads value right

/-- A line assigns a key of a section a value that stands for `v`. -/
def Gives {α : Type} (heading key : Text) (valid : Text → α → Prop) (line : FileLine) (v : α) :
    Prop :=
  IsLast Opens [] line.before heading ∧ ∃ value, Assigns line.text key value ∧ valid value v

section Lines

variable {line heading key value : Text}

theorem isHeader_iff {text : Text} :
    isHeader text = true ↔ ∃ name, text = ('[' : UInt8) :: name ++ [(']' : UInt8)] := by
  rw [isHeader, Bool.and_eq_true, beq_iff_eq, beq_iff_eq]
  constructor
  · rintro ⟨hfirst, hlast⟩
    obtain ⟨rest, rfl⟩ := List.head?_eq_some_iff.mp hfirst
    obtain ⟨before, hbefore⟩ := List.getLast?_eq_some_iff.mp hlast
    cases before with
    | nil => exact absurd (List.cons.inj hbefore).1 (by decide)
    | cons b name =>
        obtain ⟨-, rfl⟩ := List.cons.inj hbefore
        exact ⟨name, rfl⟩
  · rintro ⟨name, rfl⟩
    exact ⟨rfl, List.getLast?_concat⟩

theorem opens_iff : Opens line heading ↔ Line.read line = .header heading := by
  simp only [Opens, Text.pads_iff, Line.read]
  constructor
  · rintro ⟨name, htrim, rfl⟩
    have hcomment : isComment (('[' : UInt8) :: name ++ [(']' : UInt8)]) = false := rfl
    rw [htrim, hcomment, if_neg Bool.false_ne_true, if_pos (isHeader_iff.mpr ⟨name, rfl⟩)]
    simp
  · intro h
    split at h
    · cases h
    · split at h
      · next hheader =>
          obtain ⟨name, hname⟩ := isHeader_iff.mp hheader
          rw [hname] at h ⊢
          exact ⟨name, rfl, by simpa using h⟩
      · split at h <;> cases h

theorem assigns_iff : Assigns line key value ↔ Line.read line = .assignment key value := by
  simp only [Assigns, Text.pads_iff]
  constructor
  · rintro ⟨left, right, name, htrim, hleft, hcomment, hopens, hname, rfl, hvalue⟩
    have hsplit : Text.splitFirst? '=' (left ++ ('=' : UInt8) :: right) = some (left, right) :=
      Text.splitFirst?_eq_some_iff.mpr ⟨rfl, hleft⟩
    have hheader : isHeader (left ++ ('=' : UInt8) :: right) = false := by
      rw [← Bool.not_eq_true, isHeader_iff]
      rintro ⟨inner, hinner⟩
      exact hopens _ ⟨inner, by rw [← hinner, ← htrim]; exact Text.pads_trim line, rfl⟩
    simp only [Line.read, htrim, hcomment, hheader, hsplit, hname, hvalue]
    rfl
  · intro h
    have hread := h
    simp only [Line.read] at h
    split at h
    · cases h
    · next hcomment =>
        split at h
        · cases h
        · split at h
          · cases h
          · next left right hsplit =>
              obtain ⟨rfl, rfl⟩ := Line.assignment.inj h
              obtain ⟨htrim, hleft⟩ := Text.splitFirst?_eq_some_iff.mp hsplit
              rw [htrim, Bool.not_eq_true] at hcomment
              refine ⟨left, right, trim left, htrim, hleft, hcomment, fun heading hopens => ?_,
                rfl, rfl, rfl⟩
              rw [opens_iff.mp hopens] at hread
              cases hread

end Lines

/-! ## One setting -/

def header? (line : Text) : Option Text :=
  match Line.read line with
  | .header heading => some heading
  | _ => none

/-- The section that a line stands in behind some lines; empty in front of all headers. -/
def headingBehind (before : List Text) : Text := (before.filterMap header?).getLastD []

theorem isLast_opens_iff {before : List Text} {heading : Text} :
    IsLast Opens [] before heading ↔ headingBehind before = heading := by
  refine isLast_iff fun line heading => ?_
  rw [opens_iff, header?]
  split
  · next name hname => rw [hname, Line.header.injEq, Option.some.injEq]
  · next hother => simpa using hother heading

theorem headingBehind_concat (before : List Text) (line : Text) :
    headingBehind (before ++ [line]) = (header? line).getD (headingBehind before) := by
  rw [headingBehind, List.filterMap_append, getLastD_append]
  cases hheader : header? line with
  | some heading => rw [List.filterMap_cons_some hheader]; rfl
  | none => rw [List.filterMap_cons_none hheader]; rfl

/-- A setting: where it is assigned, what it may be assigned, and its place in the record. -/
structure Field (α : Type) where
  heading : Text
  key : Text
  valid : Text → α → Prop
  read? : Text → Option α
  get : Settings → α
  valid_iff : ∀ value v, valid value v ↔ read? value = some v
  get_assign : ∀ settings heading' key' value, get (settings.assign heading' key' value) =
    if heading' = heading ∧ key' = key then (read? value).getD (get settings) else get settings

namespace Field

variable {α : Type} (field : Field α)

def given? (line : FileLine) : Option α :=
  match Line.read line.text with
  | .assignment key value =>
      if headingBehind line.before = field.heading ∧ key = field.key then field.read? value
      else none
  | _ => none

theorem gives_iff (line : FileLine) (v : α) :
    Gives field.heading field.key field.valid line v ↔ field.given? line = some v := by
  simp only [Gives, isLast_opens_iff, assigns_iff, field.valid_iff, given?]
  split
  · next key value hread =>
      rw [Option.ite_none_right_eq_some, and_assoc, hread]
      refine and_congr_right fun _ => ⟨?_, ?_⟩
      · rintro ⟨value', hsame, hvalue⟩
        obtain ⟨rfl, rfl⟩ := Line.assignment.inj hsame
        exact ⟨rfl, hvalue⟩
      · rintro ⟨rfl, hvalue⟩
        exact ⟨value, rfl, hvalue⟩
  · next hother =>
      refine iff_of_false ?_ nofun
      rintro ⟨-, value, hread, -⟩
      exact hother _ _ hread

theorem get_applyLines (settings : Settings) (before rest : List Text) :
    field.get (settings.applyLines (headingBehind before) rest) =
      ((fileLinesFrom before rest).filterMap field.given?).getLastD (field.get settings) := by
  induction rest generalizing settings before with
  | nil => rfl
  | cons line rest ih =>
      have hheading := headingBehind_concat before line
      cases hread : Line.read line with
      | blank =>
          have hgiven : field.given? ⟨before, line⟩ = none := by simp [given?, hread]
          have hheader : header? line = none := by simp [header?, hread]
          rw [hheader, Option.getD_none] at hheading
          simp only [applyLines, hread]
          rw [fileLinesFrom, List.filterMap_cons_none hgiven, ← ih, hheading]
      | header name =>
          have hgiven : field.given? ⟨before, line⟩ = none := by simp [given?, hread]
          have hheader : header? line = some name := by simp [header?, hread]
          rw [hheader, Option.getD_some] at hheading
          simp only [applyLines, hread]
          rw [fileLinesFrom, List.filterMap_cons_none hgiven, ← ih, hheading]
      | assignment key value =>
          have hheader : header? line = none := by simp [header?, hread]
          rw [hheader, Option.getD_none] at hheading
          have hgiven : field.given? ⟨before, line⟩ =
              if headingBehind before = field.heading ∧ key = field.key then field.read? value
              else none := by simp [given?, hread]
          simp only [applyLines, hread]
          rw [← hheading, ih, field.get_assign, hheading, fileLinesFrom]
          split
          · next hfield =>
              rw [if_pos hfield] at hgiven
              cases hvalue : field.read? value with
              | none =>
                  rw [List.filterMap_cons_none (hgiven.trans hvalue)]
                  rfl
              | some v =>
                  rw [List.filterMap_cons_some (hgiven.trans hvalue), List.getLastD_cons]
                  rfl
          · next hfield =>
              rw [if_neg hfield] at hgiven
              rw [List.filterMap_cons_none hgiven]

theorem get_foldl_apply (settings : Settings) (contents : List Text) :
    field.get (contents.foldl apply settings) =
      ((contents.flatMap fileLines).filterMap field.given?).getLastD (field.get settings) := by
  induction contents generalizing settings with
  | nil => rfl
  | cons content rest ih =>
      have happly : field.get (settings.apply content) =
          ((fileLines content).filterMap field.given?).getLastD (field.get settings) :=
        field.get_applyLines settings [] (Text.lines content)
      rw [List.foldl_cons, ih, happly, List.flatMap_cons, List.filterMap_append, getLastD_append]

theorem isLast_get (settings : Settings) (contents : List Text) :
    IsLast (Gives field.heading field.key field.valid) (field.get settings)
      (contents.flatMap fileLines) (field.get (contents.foldl apply settings)) :=
  (isLast_iff field.gives_iff).mpr (field.get_foldl_apply settings contents).symm

theorem of_valid {p : α → Prop} (hdefault : p (field.get default))
    (hvalid : ∀ value v, field.valid value v → p v) (contents : List Text) :
    p (field.get (contents.foldl apply default)) := by
  rcases (field.isLast_get default contents).eq_or_exists with hinitial | ⟨line, -, -, value, -, h⟩
  · rwa [hinitial]
  · exact hvalid value _ h

end Field

/-! ## The four settings -/

def extensions? (value : Text) : Option (List Text) :=
  if items value = [] then none else some (items value)

def marker? (value : Text) : Option Text := if value = [] then none else some (value ++ " ")

/-- An assignment changes the setting with its section and key, and no other one. -/
theorem assign_eq (settings : Settings) (heading key value : Text) :
    settings.assign heading key value =
      { maxRounds :=
          if heading = "repair" ∧ key = "max_rounds" then
            (RoundCount.read? value).getD settings.maxRounds
          else settings.maxRounds
        figures :=
          { extensions :=
              if heading = "repair" ∧ key = "image_extensions" then
                (extensions? value).getD settings.figures.extensions
              else settings.figures.extensions
            marker :=
              if heading = "repair" ∧ key = "missing_figure_marker" then
                (marker? value).getD settings.figures.marker
              else settings.figures.marker }
        onlyTables :=
          if heading = "sanitize" ∧ key = "tables_only" then
            (flag? value).getD settings.onlyTables
          else settings.onlyTables } := by
  have hheadings : ("sanitize" : Text) ≠ "repair" ∧ ("repair" : Text) ≠ "sanitize" := by decide
  have hkeys : ("image_extensions" : Text) ≠ "max_rounds" ∧
      ("missing_figure_marker" : Text) ≠ "max_rounds" ∧
      ("missing_figure_marker" : Text) ≠ "image_extensions" := by decide
  have hrounds : settings.assignRounds value =
      { settings with maxRounds := (RoundCount.read? value).getD settings.maxRounds } := by
    rw [assignRounds]
    cases RoundCount.read? value <;> rfl
  have hextensions : settings.assignExtensions value =
      { settings with figures := { settings.figures with
        extensions := (extensions? value).getD settings.figures.extensions } } := by
    rw [assignExtensions, extensions?]
    cases items value <;> rfl
  have hmarker : settings.assignMarker value =
      { settings with figures := { settings.figures with
        marker := (marker? value).getD settings.figures.marker } } := by
    rw [assignMarker, marker?]
    cases value <;> rfl
  have hflag : settings.assignOnlyTables value =
      { settings with onlyTables := (flag? value).getD settings.onlyTables } := by
    rw [assignOnlyTables]
    cases flag? value <;> rfl
  -- The keys differ from each other, so at most one of the four assignments is made.
  unfold assign
  rw [hrounds, hextensions, hmarker, hflag]
  by_cases hrepair : heading = "repair"
  · by_cases hrounds : key = "max_rounds"
    · simp [hrepair, hrounds, hheadings, hkeys.1.symm, hkeys.2.1.symm]
    · by_cases hextensions : key = "image_extensions"
      · simp [hrepair, hextensions, hheadings, hkeys, hkeys.2.2.symm]
      · by_cases hmarker : key = "missing_figure_marker"
        · simp [hrepair, hmarker, hheadings, hkeys]
        · simp [hrepair, hrounds, hextensions, hmarker, hheadings]
  · by_cases hsanitize : heading = "sanitize" ∧ key = "tables_only"
    · simp [hsanitize, hheadings]
    · simp [hrepair, hsanitize]

namespace Field

def maxRounds : Field Nat where
  heading := "repair"
  key := "max_rounds"
  valid := RoundCount.Denotes
  read? := RoundCount.read?
  get := (·.maxRounds)
  valid_iff := fun _ _ => RoundCount.denotes_iff
  get_assign := fun settings heading key value => by rw [assign_eq]

def extensions : Field (List Text) where
  heading := "repair"
  key := "image_extensions"
  valid := IsList
  read? := extensions?
  get := (·.figures.extensions)
  valid_iff := fun value list => by
    rw [isList_iff, extensions?, Option.ite_none_left_eq_some, Option.some.injEq]
    exact and_congr_right fun _ => eq_comm
  get_assign := fun settings heading key value => by rw [assign_eq]

def marker : Field Text where
  heading := "repair"
  key := "missing_figure_marker"
  valid := IsMarker
  read? := marker?
  get := (·.figures.marker)
  valid_iff := fun value marker => by
    rw [IsMarker, marker?, Option.ite_none_left_eq_some, Option.some.injEq]
    exact and_congr_right fun _ => eq_comm
  get_assign := fun settings heading key value => by rw [assign_eq]

def onlyTables : Field Bool where
  heading := "sanitize"
  key := "tables_only"
  valid := IsFlag
  read? := flag?
  get := (·.onlyTables)
  valid_iff := fun _ _ => isFlag_iff
  get_assign := fun settings heading key value => by rw [assign_eq]

end Field

/-! ## Settings that can be used -/

structure IsValid (settings : Settings) : Prop where
  maxRounds : 1 ≤ settings.maxRounds ∧ settings.maxRounds ≤ 100
  extensions : settings.figures.extensions ≠ [] ∧
    ∀ item ∈ settings.figures.extensions, item ≠ [] ∧ item.IsTrimmed
  marker : settings.figures.marker ≠ [] ∧
    settings.figures.marker.getLast? = some (' ' : UInt8)

theorem isValid_default : default.IsValid where
  maxRounds := by decide
  extensions := by
    refine ⟨List.cons_ne_nil _ _, ?_⟩
    simp only [Text.IsTrimmed]
    decide +kernel
  marker := by decide

theorem IsList.forall_isTrimmed {value : Text} {list : List Text} (h : IsList value list) :
    ∀ item ∈ list, item ≠ [] ∧ item.IsTrimmed := by
  obtain ⟨-, pieces, hpieces, rfl⟩ := h
  intro item hitem
  obtain ⟨hmem, hne⟩ := List.mem_filter.mp hitem
  rw [forall₂_pads_iff] at hpieces
  obtain ⟨piece, -, rfl⟩ := List.mem_map.mp (hpieces ▸ hmem)
  exact ⟨by simpa using hne, (Text.pads_trim piece).1⟩

theorem isValid_foldl_apply (contents : List Text) :
    (contents.foldl apply default).IsValid where
  maxRounds := Field.maxRounds.of_valid (p := fun rounds => 1 ≤ rounds ∧ rounds ≤ 100)
    isValid_default.maxRounds (fun _ _ hvalid => hvalid.2) contents
  extensions := Field.extensions.of_valid
    (p := fun list => list ≠ [] ∧ ∀ item ∈ list, item ≠ [] ∧ item.IsTrimmed)
    isValid_default.extensions (fun _ _ hvalid => ⟨hvalid.1, hvalid.forall_isTrimmed⟩) contents
  marker := by
    refine Field.marker.of_valid
      (p := fun marker => marker ≠ [] ∧ marker.getLast? = some (' ' : UInt8))
      isValid_default.marker ?_ contents
    rintro value marker ⟨-, rfl⟩
    exact ⟨List.append_ne_nil_of_right_ne_nil _ (List.cons_ne_nil _ _), List.getLast?_concat⟩

theorem text_mem_of_mem_fileLinesFrom {line : FileLine} {before lines : List Text}
    (h : line ∈ fileLinesFrom before lines) : line.text ∈ lines := by
  induction lines generalizing before with
  | nil => cases h
  | cons first rest ih =>
      rcases List.mem_cons.mp h with rfl | h
      · exact List.mem_cons_self
      · exact List.mem_cons_of_mem _ (ih h)

theorem isUnbroken_marker (contents : List Text) :
    (contents.foldl apply default).figures.marker.IsUnbroken := by
  rcases (Field.marker.isLast_get default contents).eq_or_exists with h | ⟨line, hline, hgives⟩
  · change (contents.foldl apply default).figures.marker = default.figures.marker at h
    rw [h]
    decide +kernel
  · obtain ⟨content, -, hline⟩ := List.mem_flatMap.mp hline
    obtain ⟨-, value, hassigns, -, hmarker⟩ := hgives
    obtain ⟨left, right, name, hpads, -, -, -, -, -, hvalue⟩ := hassigns
    have hunbroken := Text.isUnbroken_of_mem_lines (text_mem_of_mem_fileLinesFrom hline)
    change (contents.foldl apply default).figures.marker = _ at hmarker
    rw [hmarker, Text.isUnbroken_append]
    refine ⟨hunbroken.of_subset fun b hb => hpads.subset ?_, by decide⟩
    exact List.mem_append_right _ (List.mem_cons_of_mem _ (hvalue.subset hb))

/-! ## Loading -/

def configArguments (path : Text) : List Text := ["--config", path]

section Loading

variable {disk : Disk Id} {files : List (Text × OpenedFile)}

theorem load?_files (h : ∀ file ∈ files, (disk.read file.1).run = some file.2)
    (settings : Settings) :
    files.foldlM (fun settings file => (load? disk settings file.1).run) settings =
      some ((files.map (·.2.content)).foldl apply settings) := by
  induction files generalizing settings with
  | nil => rfl
  | cons file rest ih =>
      obtain ⟨hfile, hrest⟩ := List.forall_mem_cons.mp h
      have hload : (load? disk settings file.1).run = some (settings.apply file.2.content) := by
        simp only [Id.run] at hfile
        simp only [load?, Id.run, bind, pure, hfile]
        rfl
      rw [List.foldlM_cons, hload, List.map_cons, List.foldl_cons]
      exact ih hrest _

theorem configure_files (h : ∀ file ∈ files, (disk.read file.1).run = some file.2)
    (settings : Settings) (rest : List Text) :
    (Command.configure disk settings (files.flatMap (configArguments ·.1) ++ rest)).run =
      (Command.configure disk ((files.map (·.2.content)).foldl apply settings) rest).run := by
  induction files generalizing settings with
  | nil => rfl
  | cons file others ih =>
      obtain ⟨hfile, hothers⟩ := List.forall_mem_cons.mp h
      have hload : load? disk settings file.1 = some (settings.apply file.2.content) := by
        simp only [Id.run] at hfile
        simp only [load?, bind, pure, hfile]
        rfl
      rw [List.flatMap_cons, List.append_assoc, List.map_cons, List.foldl_cons, ← ih hothers]
      simp only [configArguments, Command.configure, List.cons_append, List.nil_append,
        beq_self_eq_true, if_true, Id.run, bind, hload]

end Loading

/--
After any settings files that can be opened, each setting has the value of the last line that
assigns it a valid one in its section, or its default, and the settings can be used.
-/
theorem load_lastValid {disk : Disk Id} {files : List (Text × OpenedFile)}
    (h : ∀ file ∈ files, (disk.read file.1).run = some file.2) (rest : List Text) :
    let settings := (files.map (·.2.content)).foldl apply default
    let lines := (files.map (·.2.content)).flatMap fileLines
    files.foldlM (fun settings file => (load? disk settings file.1).run) default = some settings ∧
      (Command.configure disk default (files.flatMap (configArguments ·.1) ++ rest)).run =
        (Command.configure disk settings rest).run ∧
      IsLast (Gives "repair" "max_rounds" RoundCount.Denotes) default.maxRounds lines
        settings.maxRounds ∧
      IsLast (Gives "repair" "image_extensions" IsList) default.figures.extensions lines
        settings.figures.extensions ∧
      IsLast (Gives "repair" "missing_figure_marker" IsMarker) default.figures.marker lines
        settings.figures.marker ∧
      IsLast (Gives "sanitize" "tables_only" IsFlag) default.onlyTables lines
        settings.onlyTables ∧
      settings.IsValid :=
  ⟨load?_files h default, configure_files h default rest, Field.maxRounds.isLast_get default _,
    Field.extensions.isLast_get default _, Field.marker.isLast_get default _,
    Field.onlyTables.isLast_get default _, isValid_foldl_apply _⟩

/-- The second file assigns the same setting, first in no section and then an invalid value. -/
theorem load_lastValid_second :
    let first : Text := "[repair]\nmax_rounds = 7\n"
    let second : Text := "max_rounds = 5\n[Repair]\nMAX_ROUNDS = 0\nmissing_figure_marker = %\n"
    let tree : FileTree := { files := [(["a.ini"], first), (["b.ini"], second)] }
    let files : List (Text × OpenedFile) := [("a.ini", .holding first), ("b.ini", .holding second)]
    (∀ file ∈ files, (tree.disk.read file.1).run = some file.2) ∧
      files.foldlM (fun settings file => (load? tree.disk settings file.1).run) default =
        some { maxRounds := 7, figures := { marker := "% " } } := by
  intro first second tree files
  have h : ∀ file ∈ files, (tree.disk.read file.1).run = some file.2 := by decide +kernel
  exact ⟨h, (load_lastValid h []).1.trans (by decide +kernel)⟩

end Settings

end LatexIntegrity
