import LatexIntegrity.Proofs.Region.Classes
import LatexIntegrity.Proofs.Repair.FigureReferences
import LatexIntegrity.Proofs.Text.LineEdits

/-!
# Figures line by line

The figures of a document are read off its bytes and their classes.  If each of the commands
ends on the line where it begins, then they are read line by line.
-/

namespace LatexIntegrity

open Repair (FigureReference IsFigureCommand)

def ByteClass.isEligible (byteClass : ByteClass) : Bool :=
  byteClass.kind == .plain || byteClass.isInEnvironment Environment.isFigure

namespace ClassedText

def figure? (context : LeftContext) (items : ClassedText) : Option (Text × Nat) :=
  if items.head?.any (·.2.isEligible) then FigureReference.read? context items.bytes else none

/--
The figures among some items, each with the number of its line.  The first items may still
belong to a command.
-/
def figuresFrom : Nat → Nat → LeftContext → ClassedText → List (Text × Nat)
  | _, _, _, [] => []
  | number, covered + 1, context, item :: rest =>
      figuresFrom (if isFeed item then number + 1 else number) covered (context.push item.1) rest
  | number, 0, context, item :: rest =>
      match figure? context (item :: rest) with
      | some (path, length) =>
          (path, number) :: figuresFrom number (length - 1) (context.push item.1) rest
      | none =>
          figuresFrom (if isFeed item then number + 1 else number) 0 (context.push item.1) rest

/-- No command goes on behind the line where it begins. -/
def FiguresEndOnLines : Nat → LeftContext → ClassedText → Prop
  | _, _, [] => True
  | covered + 1, context, item :: rest =>
      isFeed item = false ∧ FiguresEndOnLines covered (context.push item.1) rest
  | 0, context, item :: rest =>
      match figure? context (item :: rest) with
      | some (_, length) => FiguresEndOnLines (length - 1) (context.push item.1) rest
      | none => FiguresEndOnLines 0 (context.push item.1) rest

variable {number covered length : Nat} {context : LeftContext} {path : Text}
  {item feed : UInt8 × ByteClass} {items first rest line : ClassedText}

theorem figure?_eq_some_iff : figure? context items = some (path, length) ↔
    items.head?.any (·.2.isEligible) = true ∧ context.escaped = false ∧
      ∃ source rest, items.bytes = source ++ rest ∧ source.length = length ∧
        IsFigureCommand path source := by
  rw [figure?, Option.ite_none_right_eq_some, FigureReference.read?_iff]

theorem head?_of_figure? (h : figure? context items = some (path, length)) :
    items.bytes.head? = some ('\\' : UInt8) := by
  obtain ⟨-, -, source, rest, hbytes, -, options, -, -, -, rfl⟩ := figure?_eq_some_iff.mp h
  rw [hbytes]
  rfl

theorem figure?_of_isFeed (h : isFeed item = true) : figure? context (item :: rest) = none := by
  refine Option.eq_none_iff_forall_ne_some.mpr fun found hfound => ?_
  have hhead := head?_of_figure? hfound
  obtain ⟨b, byteClass⟩ := item
  obtain rfl : b = ('\n' : UInt8) := beq_iff_eq.mp h
  have hbyte : ('\n' : UInt8) = '\\' := Option.some.inj hhead
  revert hbyte
  decide

theorem push_of_isFeed (h : isFeed item = true) : context.push item.1 = .initial := by
  have hbyte : item.1 = ('\n' : UInt8) := beq_iff_eq.mp h
  rw [hbyte]
  rfl

theorem figure?_append (hlength : length ≤ items.length) (rest : ClassedText) :
    figure? context (items ++ rest) = some (path, length) ↔
      figure? context items = some (path, length) := by
  have hbytes : (bytes (items ++ rest)) = items.bytes ++ rest.bytes := List.map_append
  have hwidth : items.bytes.length = items.length := List.length_map _
  simp only [figure?_eq_some_iff, hbytes]
  constructor
  · rintro ⟨heligible, hescaped, source, behind, hsource, rfl, hcommand⟩
    have hpos := List.length_pos_iff.mpr hcommand.ne_nil
    have hstarts := List.prefix_of_prefix_length_le ⟨behind, hsource.symm⟩
      (List.prefix_append _ rest.bytes) (by omega)
    obtain ⟨behind', hbehind'⟩ := hstarts
    rw [List.head?_append_of_ne_nil _ (List.length_pos_iff.mp (by omega))] at heligible
    exact ⟨heligible, hescaped, source, behind', hbehind'.symm, rfl, hcommand⟩
  · rintro ⟨heligible, hescaped, source, behind, hsource, rfl, hcommand⟩
    have hne : items ≠ [] := by
      rintro rfl
      cases heligible
    refine ⟨?_, hescaped, source, behind ++ rest.bytes, ?_, rfl, hcommand⟩
    · rwa [List.head?_append_of_ne_nil _ hne]
    · rw [hsource, List.append_assoc]

theorem length_le_of_figure? (h : figure? context items = some (path, length)) :
    0 < length ∧ length ≤ items.length := by
  obtain ⟨-, -, source, behind, hbytes, rfl, hcommand⟩ := figure?_eq_some_iff.mp h
  have hlength := congrArg List.length hbytes
  rw [bytes, List.length_map, List.length_append] at hlength
  exact ⟨List.length_pos_iff.mpr hcommand.ne_nil, by omega⟩

theorem figuresFrom_covered (number : Nat) (context : LeftContext) (first rest : ClassedText) :
    figuresFrom number first.length context (first ++ rest) =
      figuresFrom (number + first.countP isFeed) 0 (context.pushAll first.bytes) rest := by
  induction first generalizing number context with
  | nil => rfl
  | cons item first ih =>
      rw [List.length_cons, List.cons_append, figuresFrom, ih, List.countP_cons]
      split
      · rw [Nat.add_right_comm]
        rfl
      · rfl

theorem figuresEndOnLines_covered (context : LeftContext) (first rest : ClassedText) :
    FiguresEndOnLines first.length context (first ++ rest) ↔
      (∀ item ∈ first, isFeed item = false) ∧
        FiguresEndOnLines 0 (context.pushAll first.bytes) rest := by
  induction first generalizing context with
  | nil => simp [bytes]
  | cons item first ih =>
      rw [List.length_cons, List.cons_append, FiguresEndOnLines, ih, List.forall_mem_cons,
        and_assoc]
      rfl

/-! ## Line by line -/

theorem figuresFrom_feed (number : Nat) (hfeed : isFeed feed = true) :
    figuresFrom number 0 context (feed :: rest) = figuresFrom (number + 1) 0 .initial rest := by
  rw [figuresFrom, figure?_of_isFeed hfeed, if_pos hfeed, push_of_isFeed hfeed]

theorem figuresEndOnLines_feed (hfeed : isFeed feed = true) :
    FiguresEndOnLines 0 context (feed :: rest) ↔ FiguresEndOnLines 0 .initial rest := by
  rw [FiguresEndOnLines, figure?_of_isFeed hfeed, push_of_isFeed hfeed]

theorem covered_le (hfeed : isFeed feed = true)
    (h : FiguresEndOnLines covered context (line ++ feed :: rest)) : covered ≤ line.length := by
  induction line generalizing covered context with
  | nil =>
      cases covered with
      | zero => exact Nat.le_refl 0
      | succ covered => exact absurd hfeed (Bool.eq_false_iff.mp h.1)
  | cons item line ih =>
      cases covered with
      | zero => exact Nat.zero_le _
      | succ covered => exact Nat.succ_le_succ (ih h.2)

theorem figure?_line (hfeed : isFeed feed = true)
    (h : FiguresEndOnLines 0 context (line ++ feed :: rest)) :
    figure? context (line ++ feed :: rest) = figure? context line := by
  cases line with
  | nil => exact figure?_of_isFeed hfeed
  | cons item line =>
      apply Option.ext
      rintro ⟨path, length⟩
      constructor
      · intro hread
        rw [List.cons_append] at h hread
        rw [FiguresEndOnLines, hread] at h
        have hcovered := covered_le hfeed h
        exact (figure?_append (by rw [List.length_cons]; omega) _).mp hread
      · intro hread
        exact (figure?_append (length_le_of_figure? hread).2 _).mpr hread

theorem figuresFrom_line (number : Nat) (hline : ∀ item ∈ line, isFeed item = false)
    (hfeed : isFeed feed = true)
    (h : FiguresEndOnLines covered context (line ++ feed :: rest)) :
    figuresFrom number covered context (line ++ feed :: rest) =
        figuresFrom number covered context line ++ figuresFrom (number + 1) 0 .initial rest ∧
      FiguresEndOnLines 0 .initial rest := by
  induction line generalizing covered context with
  | nil =>
      obtain rfl : covered = 0 := Nat.le_zero.mp (covered_le hfeed h)
      exact ⟨figuresFrom_feed number hfeed, (figuresEndOnLines_feed hfeed).mp h⟩
  | cons item line ih =>
      obtain ⟨hitem, hline⟩ := List.forall_mem_cons.mp hline
      cases covered with
      | succ covered =>
          obtain ⟨heq, hrest⟩ := ih hline h.2
          refine ⟨?_, hrest⟩
          rw [List.cons_append, figuresFrom, figuresFrom, hitem]
          exact heq
      | zero =>
          have hsame := figure?_line hfeed h
          rw [List.cons_append] at h hsame ⊢
          rw [FiguresEndOnLines, hsame] at h
          rw [figuresFrom, figuresFrom, hsame, hitem]
          cases hread : figure? context (item :: line) with
          | none =>
              rw [hread] at h
              exact ih hline h
          | some found =>
              rw [hread] at h
              obtain ⟨heq, hrest⟩ := ih hline h
              exact ⟨congrArg (_ :: ·) heq, hrest⟩

def lineFigures (line : ClassedText) : List Text := (figuresFrom 0 0 .initial line).map (·.1)

theorem figuresFrom_eq_map (number : Nat) (hline : ∀ item ∈ line, isFeed item = false) :
    figuresFrom number covered context line =
      (figuresFrom 0 covered context line).map fun figure => (figure.1, number) := by
  induction line generalizing covered context with
  | nil => rfl
  | cons item line ih =>
      obtain ⟨hitem, hline⟩ := List.forall_mem_cons.mp hline
      cases covered with
      | succ covered =>
          rw [figuresFrom, figuresFrom, hitem]
          exact ih hline
      | zero =>
          rw [figuresFrom, figuresFrom, hitem]
          cases hread : figure? context (item :: line) with
          | none => exact ih hline
          | some found => exact congrArg (_ :: ·) (ih hline)

theorem figuresFrom_eq_flatten (number : Nat) (h : FiguresEndOnLines 0 .initial items) :
    figuresFrom number 0 .initial items =
      ((items.splitOnP isFeed).mapIdx fun index line =>
        (lineFigures line).map (·, number + index)).flatten := by
  have hlast : ∀ number line, (∀ item ∈ line, isFeed item = false) →
      figuresFrom number 0 .initial line = (lineFigures line).map (·, number) := by
    intro number line hline
    rw [figuresFrom_eq_map number hline, lineFigures, List.map_map]
    rfl
  induction items using Text.induction_lines isFeed generalizing number with
  | last line hline =>
      rw [List.splitOnP_eq_singleton hline, List.mapIdx_singleton, List.flatten_singleton,
        hlast number line hline]
      rfl
  | line line feed rest hline hfeed ih =>
      obtain ⟨heq, hrest⟩ := figuresFrom_line number hline hfeed h
      rw [Text.splitOnP_line_append hline hfeed, List.mapIdx_cons, List.flatten_cons, heq,
        hlast number line hline, ih (number + 1) hrest]
      simp only [Nat.add_zero, Nat.add_assoc, Nat.add_comm 1]

theorem mem_figuresFrom_iff {path : Text} {index : Nat}
    (h : FiguresEndOnLines 0 .initial items) :
    (path, index) ∈ figuresFrom 0 0 .initial items ↔
      ∃ line, (items.splitOnP isFeed)[index]? = some line ∧ path ∈ lineFigures line := by
  rw [figuresFrom_eq_flatten 0 h]
  simp only [List.mem_flatten, List.mem_mapIdx, List.getElem?_eq_some_iff, Nat.zero_add]
  constructor
  · rintro ⟨_, ⟨number, hnumber, rfl⟩, hfigure⟩
    obtain ⟨other, hother, heq⟩ := List.mem_map.mp hfigure
    obtain ⟨rfl, rfl⟩ := Prod.mk.inj heq
    exact ⟨_, ⟨hnumber, rfl⟩, hother⟩
  · rintro ⟨_, ⟨hindex, rfl⟩, hpath⟩
    exact ⟨_, ⟨index, hindex, rfl⟩, List.mem_map_of_mem hpath⟩

end ClassedText

namespace Repair

open ClassedText (isFeed figuresFrom FiguresEndOnLines)

def FigureReference.EndsOnLine (text : Text) (figure : FigureReference) : Prop :=
  ∃ source : Text, source <+: text.drop figure.offset ∧ IsFigureCommand figure.path source ∧
    source.IsUnbroken

theorem IsFigureCommand.unique {text path path' source source' : Text}
    (h : IsFigureCommand path source) (h' : IsFigureCommand path' source')
    (hsource : source <+: text) (hsource' : source' <+: text) : source = source' := by
  have hread : ∀ {path source : Text}, IsFigureCommand path source → source <+: text →
      FigureReference.read? .initial text = some (path, source.length) := by
    rintro path source hcommand ⟨rest, rfl⟩
    exact FigureReference.read?_append rfl hcommand rest
  have hsame := (hread h hsource).symm.trans (hread h' hsource')
  rw [Option.some.injEq, Prod.mk.injEq] at hsame
  rw [List.prefix_iff_eq_take.mp hsource, List.prefix_iff_eq_take.mp hsource', hsame.2]

structure ListsFigures (before : Text) (items : ClassedText) (figures : List FigureReference) :
    Prop where
  eq : figures.map (fun figure =>
      (figure.path, Text.lineNumber (before ++ items.bytes) figure.offset)) =
    figuresFrom (before.countP (· == ('\n' : UInt8))) 0 (.after before) items
  ends : (∀ figure ∈ figures, figure.EndsOnLine (before ++ items.bytes)) →
    FiguresEndOnLines 0 (.after before) items

namespace ListsFigures

variable {before path : Text} {figures : List FigureReference} {item : UInt8 × ByteClass}
  {first rest : ClassedText}

theorem command (hcommand : IsFigureCommand path (ClassedText.bytes (item :: first)))
    (hescaped : (LeftContext.after before).escaped = false)
    (heligible : item.2.isEligible = true)
    (h : ListsFigures (before ++ ClassedText.bytes (item :: first)) rest figures) :
    ListsFigures before (item :: (first ++ rest)) (⟨path, before.length⟩ :: figures) := by
  have hread : ClassedText.figure? (.after before) (item :: (first ++ rest)) =
      some (path, first.length + 1) :=
    ClassedText.figure?_eq_some_iff.mpr ⟨heligible, hescaped, _, rest.bytes,
      by simp, by simp, hcommand⟩
  have hhead : item.1 = ('\\' : UInt8) := Option.some.inj (ClassedText.head?_of_figure? hread)
  have hnumber : (before ++ ClassedText.bytes (item :: first)).countP (· == ('\n' : UInt8)) =
      before.countP (· == ('\n' : UInt8)) + first.countP isFeed := by
    rw [List.countP_append, ClassedText.bytes_cons, hhead, List.countP_cons,
      ClassedText.countP_bytes, if_neg (by decide), Nat.add_zero]
  have hcontext : LeftContext.after (before ++ ClassedText.bytes (item :: first)) =
      ((LeftContext.after before).push item.1).pushAll (ClassedText.bytes first) :=
    LeftContext.after_append before _
  have hwhole : before ++ ClassedText.bytes (item :: first) ++ rest.bytes =
      before ++ ClassedText.bytes (item :: (first ++ rest)) := by simp
  obtain ⟨heq, hends⟩ := h
  rw [hwhole, hnumber, hcontext] at heq
  rw [hwhole, hcontext] at hends
  refine ⟨?_, fun hall => ?_⟩
  · rw [List.map_cons, heq, figuresFrom, hread]
    simp only [Nat.add_sub_cancel, ClassedText.figuresFrom_covered, Text.lineNumber,
      List.take_left]
  · obtain ⟨⟨source, hsource, hcommand', hunbroken⟩, hall⟩ := List.forall_mem_cons.mp hall
    rw [FiguresEndOnLines, hread]
    simp only [Nat.add_sub_cancel]
    rw [ClassedText.figuresEndOnLines_covered]
    rw [List.drop_left] at hsource
    obtain rfl := hcommand'.unique hcommand hsource (by simp)
    refine ⟨fun other hother => beq_false_of_ne fun hfeed => hunbroken ?_, hends hall⟩
    rw [← hfeed]
    exact List.mem_cons_of_mem _ (List.mem_map_of_mem hother)

theorem other (hnone : ClassedText.figure? (.after before) (item :: rest) = none)
    (h : ListsFigures (before ++ [item.1]) rest figures) :
    ListsFigures before (item :: rest) figures := by
  have hnumber : (before ++ [item.1]).countP (· == ('\n' : UInt8)) =
      if isFeed item then before.countP (· == ('\n' : UInt8)) + 1
      else before.countP (· == ('\n' : UInt8)) := by
    rw [List.countP_append, List.countP_singleton, isFeed]
    split <;> rfl
  obtain ⟨heq, hends⟩ := h
  rw [List.append_assoc, hnumber, LeftContext.after_concat] at heq
  rw [List.append_assoc, LeftContext.after_concat] at hends
  refine ⟨?_, fun hall => ?_⟩
  · rw [figuresFrom, hnone]
    exact heq
  · rw [FiguresEndOnLines, hnone]
    exact hends hall

end ListsFigures

theorem listsFigures_listFrom {spans : List Span} (before rest : Text) (items : ClassedText)
    (hitems : items.bytes = rest)
    (heligible : ∀ index, FigureReference.isEligible spans (before.length + index) =
      items[index]?.any (·.2.isEligible)) :
    ListsFigures before items
      (FigureReference.listFrom spans (.after before) before.length rest) := by
  -- The items carry the classes, so that each step of the scan sees what the spans say.
  refine FigureReference.listFrom_induction (motive := fun before rest figures =>
    ∀ items : ClassedText, items.bytes = rest →
      (∀ index, FigureReference.isEligible spans (before.length + index) =
        items[index]?.any (·.2.isEligible)) → ListsFigures before items figures)
    ?_ ?_ ?_ before rest items hitems heligible
  · intro before items hitems _
    obtain rfl := List.map_eq_nil_iff.mp hitems
    exact ⟨rfl, fun _ => trivial⟩
  · intro before source rest path figures hcommand hescaped hhere ih items hitems heligible
    obtain ⟨first, others, rfl, rfl, hothers⟩ := List.map_eq_append_iff.mp hitems
    obtain ⟨item, tail, rfl⟩ := List.exists_cons_of_ne_nil
      (show first ≠ [] from fun hnil => hcommand.ne_nil (by rw [hnil]; rfl))
    have hitem : item.2.isEligible = true := by
      have hzero := heligible 0
      rwa [Nat.add_zero, hhere, List.cons_append, List.getElem?_cons_zero, Option.any_some,
        eq_comm] at hzero
    refine .command hcommand hescaped hitem (ih others hothers fun index => ?_)
    have hindex := heligible ((item :: tail).length + index)
    rw [List.getElem?_append_right (Nat.le_add_right _ _), Nat.add_sub_cancel_left] at hindex
    rw [← hindex, List.length_append, List.length_map, Nat.add_assoc]
  · intro before b rest figures hnone ih items hitems heligible
    obtain ⟨item, others, rfl, rfl, rfl⟩ := List.map_eq_cons_iff.mp hitems
    refine .other ?_ (ih others rfl fun index => ?_)
    · rw [ClassedText.figure?, ite_eq_right_iff]
      intro hitem
      refine hnone ?_
      have hzero := heligible 0
      rw [Nat.add_zero, List.getElem?_cons_zero] at hzero
      exact hzero.trans hitem
    · have hindex := heligible (index + 1)
      rw [List.getElem?_cons_succ] at hindex
      rw [← hindex, List.length_append, List.length_singleton, Nat.add_assoc, Nat.add_comm 1]

/-! ## The figures of a document -/

theorem listsFigures_classed (text : Text) :
    ListsFigures [] (classed text) (figureReferences text (segment text)) := by
  refine listsFigures_listFrom [] text (classed text) (bytes_classedFrom _ text) fun index => ?_
  rw [List.length_nil, Nat.zero_add]
  exact any_findAt?_segment fun _ => rfl

theorem map_figureReferences (text : Text) :
    (figureReferences text (segment text)).map
        (fun figure => (figure.path, Text.lineNumber text figure.offset)) =
      figuresFrom 0 0 .initial (classed text) := by
  have heq := (listsFigures_classed text).eq
  rwa [List.nil_append, classed, bytes_classedFrom] at heq

theorem figuresEndOnLines_classed {text : Text}
    (h : ∀ figure ∈ figureReferences text (segment text), figure.EndsOnLine text) :
    FiguresEndOnLines 0 .initial (classed text) := by
  have hends := (listsFigures_classed text).ends
  rw [List.nil_append, classed, bytes_classedFrom] at hends
  exact hends h

end Repair

end LatexIntegrity
