import LatexIntegrity.Proofs.Repair.MarkedLines
import LatexIntegrity.Proofs.Rewriting.MarkedClasses

/-!
# Regions of a text whose lines are commented out

Markers in front of lines change the classes of the bytes on these lines and of no others,
if every region that begins on one of these lines ends there too.
-/

namespace LatexIntegrity

open Text (firstLine behindFirstLine changeLine BeginsLine IsLineStart)

/-! ## Lines of bytes with their classes -/

namespace ClassedText

variable {items : ClassedText}

theorem bytes_firstLine (items : ClassedText) :
    bytes (firstLine isFeed items) = firstLine (· == ('\n' : UInt8)) items.bytes := by
  rw [firstLine, firstLine, bytes, bytes, List.takeWhile_map]
  rfl

theorem bytes_markLine (marker : Text) (items : ClassedText) :
    bytes (markLine marker items) = marker ++ items.bytes := by
  cases items with
  | nil => exact (Region.bytes_classed _).trans (List.append_nil marker).symm
  | cons item rest =>
      rw [markLine]
      split
      · exact Region.bytes_classed _
      · simp [bytes, Function.comp_def]

theorem isFeed_of_mem_markLine {marker : Text} (hmarker : marker.IsUnbroken)
    (hline : ∀ item ∈ items, isFeed item = false) :
    ∀ item ∈ markLine marker items, isFeed item = false := by
  intro item hitem
  have hmem : item.1 ∈ marker ++ items.bytes := by
    rw [← bytes_markLine]
    exact List.mem_map_of_mem hitem
  rcases List.mem_append.mp hmem with hmem | hmem
  · exact beq_false_of_ne fun heq => hmarker (heq ▸ hmem)
  · obtain ⟨other, hother, hsame⟩ := List.mem_map.mp hmem
    rw [isFeed, ← hsame]
    exact hline other hother

def LineIsMarkable (items : ClassedText) (start : Nat) : Prop :=
  IsMarkable (firstLine isFeed (items.drop start)) (behindFirstLine isFeed (items.drop start))

theorem LineIsMarkable.congr {other : ClassedText} {start limit : Nat}
    (h : items.LineIsMarkable start) (hlimit : BeginsLine isFeed items limit) (hlt : start < limit)
    (htake : other.take limit = items.take limit) : other.LineIsMarkable start := by
  obtain ⟨item, hhead, hfree, henvironment⟩ := h
  obtain ⟨hline, hbehind⟩ := hlimit.firstLine_congr hlt htake
  refine ⟨item, by rw [hline, hhead], fun hstarts => ?_, henvironment⟩
  unfold StartsFree
  rw [hbehind]
  exact hfree hstarts

end ClassedText

open ClassedText (isFeed)

theorem bytes_classed (text : Text) : (classed text).bytes = text := bytes_classedFrom _ text

theorem beginsLine_classed_iff {text : Text} {offset : Nat} :
    BeginsLine isFeed (classed text) offset ↔ BeginsLine (· == ('\n' : UInt8)) text offset := by
  have hlength : (classed text).length = text.length := length_classedFrom _ text
  have hlast : (text.take offset).getLast? = ((classed text).take offset).getLast?.map (·.1) := by
    rw [← List.getLast?_map, List.map_take, ← ClassedText.bytes, bytes_classed]
  rw [BeginsLine, BeginsLine, hlength, hlast]
  refine and_congr_right fun _ => ?_
  cases ((classed text).take offset).getLast? <;> simp [isFeed]

variable {marker text : Text} {starts : List Nat}

namespace Repair

/-- A marker in front of a line that it may change changes the classes on this line only. -/
theorem classed_changeLine (hmarker : IsPlainMarker marker) {start : Nat}
    (hbegins : BeginsLine (· == ('\n' : UInt8)) text start)
    (hmarkable : (classed text).LineIsMarkable start) :
    classed (changeLine (· == ('\n' : UInt8)) (marker ++ ·) start text) =
      changeLine isFeed (markLine marker) start (classed text) := by
  have hline := hbegins.isLineBetween
  rw [changeLine, changeLine, List.append_assoc]
  refine classed_marked hmarker (fun b hb => beq_iff_eq.mp (hline.begins b hb)) ?_ ?_ ?_ ?_ ?_
    hmarkable
  · intro hmem
    have hinside := hline.inside _ hmem
    revert hinside
    decide
  · exact fun b hb => beq_iff_eq.mp (hline.ends b hb)
  · rw [Text.firstLine_append_behind, Text.firstLine_append_behind, List.take_append_drop,
      List.take_append_drop]
  · rw [List.length_take_of_le (beginsLine_classed_iff.mpr hbegins).1,
      List.length_take_of_le hbegins.1]
  · have hlength := congrArg List.length
      (ClassedText.bytes_firstLine ((classed text).drop start))
    rwa [ClassedText.bytes, List.length_map, ClassedText.bytes, List.map_drop,
      ← ClassedText.bytes, bytes_classed] at hlength

theorem classed_withMarks (hmarker : IsPlainMarker marker) (hsorted : starts.Pairwise (· < ·))
    (hstarts : ∀ start ∈ starts, IsLineStart text start)
    (hmarkable : ∀ start ∈ starts, (classed text).LineIsMarkable start) :
    classed (withMarks marker text starts) =
      starts.foldr (changeLine isFeed (markLine marker)) (classed text) := by
  induction starts with
  | nil => rfl
  | cons start starts ih =>
      obtain ⟨hnext, hsorted⟩ := List.pairwise_cons.mp hsorted
      obtain ⟨hstart, hstarts⟩ := List.forall_mem_cons.mp hstarts
      obtain ⟨hmark, hmarkable⟩ := List.forall_mem_cons.mp hmarkable
      have hrest := ih hsorted hstarts hmarkable
      have htake : ∀ limit ≤ text.length, (∀ other ∈ starts, limit ≤ other) →
          (classed (withMarks marker text starts)).take limit = (classed text).take limit := by
        intro limit hlimit hbefore
        rw [hrest, Text.take_foldr_changeLine
          (by rwa [classed, length_classedFrom]) hbefore]
      -- The line is one that a marker may change, since the later markers stand behind its end.
      have hmark' : (classed (withMarks marker text starts)).LineIsMarkable start := by
        cases starts with
        | nil => exact hmark
        | cons next others =>
            obtain ⟨hlater, -⟩ := List.pairwise_cons.mp hsorted
            have hlimit := hstarts next List.mem_cons_self
            refine hmark.congr (beginsLine_classed_iff.mpr hlimit.beginsLine)
              (hnext next List.mem_cons_self) (htake next hlimit.1 ?_)
            exact List.forall_mem_cons.mpr
              ⟨Nat.le_refl next, fun other hother => Nat.le_of_lt (hlater other hother)⟩
      have hbegins := (beginsLine_classed_iff.mpr hstart.beginsLine).of_take_eq
        (htake start hstart.1 fun other hother => Nat.le_of_lt (hnext other hother))
      rw [withMarks_eq, List.foldr_cons, ← withMarks_eq, List.foldr_cons, ← hrest]
      exact classed_changeLine hmarker (beginsLine_classed_iff.mp hbegins) hmark'

theorem countP_take_classed (text : Text) (offset : Nat) :
    ((classed text).take offset).countP isFeed = Text.lineNumber text offset := by
  rw [Text.lineNumber, ← ClassedText.countP_bytes, ClassedText.bytes, List.map_take,
    ← ClassedText.bytes, bytes_classed]

def classedLines (text : Text) : List ClassedText := (classed text).splitOnP isFeed

theorem map_bytes_classedLines (text : Text) :
    (classedLines text).map ClassedText.bytes = Text.lines text := by
  have hsplit : ∀ items : ClassedText, (items.splitOnP isFeed).map ClassedText.bytes =
      items.bytes.splitOnP (· == ('\n' : UInt8)) := by
    intro items
    induction items using Text.induction_lines isFeed with
    | last line hline =>
        have hbytes : ∀ b ∈ ClassedText.bytes line, (b == ('\n' : UInt8)) = false :=
          List.forall_mem_map.mpr hline
        rw [List.splitOnP_eq_singleton hline, List.splitOnP_eq_singleton hbytes]
        rfl
    | line line feed rest hline hfeed ih =>
        have hbytes : ∀ b ∈ ClassedText.bytes line, (b == ('\n' : UInt8)) = false :=
          List.forall_mem_map.mpr hline
        rw [Text.splitOnP_line_append hline hfeed, List.map_cons, ih]
        exact (Text.splitOnP_line_append hbytes hfeed _).symm.trans (by simp [ClassedText.bytes])
  rw [classedLines, hsplit, bytes_classed, ← Text.lines_eq_splitOnP]

theorem classedLines_withMarks (hmarker : IsPlainMarker marker)
    (hsorted : starts.Pairwise (· < ·)) (hstarts : ∀ start ∈ starts, IsLineStart text start)
    (hmarkable : ∀ start ∈ starts, (classed text).LineIsMarkable start) :
    classedLines (withMarks marker text starts) =
      (classedLines text).mapIdx fun number line =>
        if number ∈ starts.map (Text.lineNumber text) then markLine marker line else line := by
  rw [classedLines, classed_withMarks hmarker hsorted hstarts hmarkable,
    Text.splitOnP_foldr_changeLine (fun _ => ClassedText.isFeed_of_mem_markLine
      hmarker.isUnbroken) hsorted
      fun start hstart => beginsLine_classed_iff.mpr (hstarts start hstart).beginsLine]
  simp only [countP_take_classed]
  rfl

/-! ## The lines that the pass comments out -/

/-- No shielded region that begins on the line of the figure goes on behind this line. -/
def FigureReference.HasClosedLine (text : Text) (figure : FigureReference) : Prop :=
  ∀ span ∈ segment text, span.isShielded = true →
    Text.startOfLine text figure.offset ≤ span.start →
      span.start < Text.endOfLine text figure.offset →
        span.stop ≤ Text.endOfLine text figure.offset

instance (text : Text) (figure : FigureReference) : Decidable (figure.HasClosedLine text) :=
  inferInstanceAs (Decidable (∀ span ∈ segment text, _))

theorem isReplaceable_eq {offset : Nat} (hlt : offset < text.length) :
    Draft.isReplaceable ⟨text, segment text, []⟩ offset 0 =
      (classed text)[offset]?.any (·.2.isFree) := by
  have hany := @any_findAt?_segment text offset
    (fun span => span.kind == .plain || span.start == offset) ByteClass.isFree fun span => by
      simp only [ByteClass.isFree, Span.classAt, Span.isShielded, RegionKind.isShielded, bne,
        Bool.beq_comm (a := offset)]
      cases span.kind == .plain <;> rfl
  rw [Draft.isReplaceable, ← hany, if_neg (by simp; omega)]
  simp [Nat.ne_of_lt hlt]

theorem isInFigure_eq (text : Text) (offset : Nat) :
    Draft.isInFigure ⟨text, segment text, []⟩ offset =
      (classed text)[offset]?.any (·.2.isInEnvironment Environment.isFigure) :=
  any_findAt?_segment fun _ => rfl

theorem startsFree_behind {figure : FigureReference} (hoffset : figure.offset ≤ text.length)
    (hclosed : figure.HasClosedLine text) {item : UInt8 × ByteClass}
    (hitem : (classed text)[Text.startOfLine text figure.offset]? = some item)
    (hfree : item.2.isFree = true) :
    ClassedText.StartsFree ((classed text).drop (Text.endOfLine text figure.offset)) := by
  intro behind hbehind
  have htiles := tiles_segment text
  rw [List.head?_drop] at hbehind
  have hstop := (List.getElem?_eq_some_iff.mp hbehind).1
  rw [classed, length_classedFrom] at hstop
  obtain ⟨span, hspan, hcontains⟩ := htiles.exists_contains (Nat.zero_le _) hstop
  have hclass := getElem?_classed hspan hcontains
  rw [hbehind, List.getElem?_eq_getElem hstop, Option.map_some] at hclass
  obtain rfl := Option.some.inj hclass
  by_contra hinside
  simp only [ByteClass.isFree, Span.classAt, Bool.or_eq_true, Bool.and_eq_true, beq_iff_eq,
    not_or, not_and] at hinside
  rw [Span.contains_iff] at hcontains
  have hshielded : span.isShielded = true := by
    rw [Span.isShielded, RegionKind.isShielded, bne_iff_ne]
    exact hinside.1
  have hlt : span.start < Text.endOfLine text figure.offset :=
    Nat.lt_of_le_of_ne hcontains.1 (Ne.symm (hinside.2 hshielded))
  by_cases hstart : Text.startOfLine text figure.offset ≤ span.start
  · have hend := hclosed span hspan hshielded hstart hlt
    omega
  · -- The span holds the beginning of the line, and a region would go on there.
    have hle := (Text.startOfLine_spec hoffset).1
    have hle' := (Text.endOfLine_spec hoffset).1
    have hcontains' : span.contains (Text.startOfLine text figure.offset) = true := by
      rw [Span.contains_iff]
      omega
    rw [getElem?_classed hspan hcontains', List.getElem?_eq_getElem (by omega),
      Option.map_some] at hitem
    obtain rfl := Option.some.inj hitem
    have hne : Text.startOfLine text figure.offset ≠ span.start := by omega
    simp [ByteClass.isFree, Span.classAt, hinside.1, hne] at hfree

section

variable {disk : Disk Id} {options : FigureOptions} {directory : Text} {figure : FigureReference}

theorem length_firstLine (h : figure ∈ missingIn disk options directory text) :
    (firstLine isFeed ((classed text).drop (Text.startOfLine text figure.offset))).length =
        Text.endOfLine text figure.offset - Text.startOfLine text figure.offset ∧
      figure.offset < Text.endOfLine text figure.offset := by
  have hoffset := Nat.le_of_lt (offset_lt_of_mem_missingIn h)
  obtain ⟨source, rest, hsource, options, -, -, -, rfl⟩ := exists_command h
  constructor
  · have hline := congrArg List.length (ClassedText.bytes_firstLine
      ((classed text).drop (Text.startOfLine text figure.offset)))
    rw [ClassedText.length_bytes] at hline
    rw [hline, ClassedText.bytes, List.map_drop, ← ClassedText.bytes, bytes_classed,
      ← Text.length_lineHolding hoffset, Text.lineHolding_eq hoffset]
    rfl
  · rw [Text.endOfLine, hsource, List.cons_append, List.takeWhile_cons_of_pos (by decide),
      List.length_cons]
    omega

theorem exists_head?_firstLine (h : figure ∈ missingIn disk options directory text) :
    ∃ item, (classed text)[Text.startOfLine text figure.offset]? = some item ∧
      (firstLine isFeed
        ((classed text).drop (Text.startOfLine text figure.offset))).head? = some item := by
  have hlt := offset_lt_of_mem_missingIn h
  have hstart := (Text.startOfLine_spec (Nat.le_of_lt hlt)).1
  obtain ⟨hlength, hend⟩ := length_firstLine h
  obtain ⟨item, hitem⟩ : ∃ item,
      (classed text)[Text.startOfLine text figure.offset]? = some item :=
    ⟨_, List.getElem?_eq_getElem (by rw [classed, length_classedFrom]; omega)⟩
  refine ⟨item, hitem, ?_⟩
  rw [firstLine, ← take_length_takeWhile, ← firstLine, hlength, List.head?_take,
    if_neg (by omega), List.head?_drop, hitem]

theorem lineIsMarkable (hfigure : figure ∈ commentedFigures disk options directory text)
    (hclosed : figure.HasClosedLine text) :
    (classed text).LineIsMarkable (Text.startOfLine text figure.offset) := by
  have hmissing := List.mem_of_mem_filter hfigure
  have hlt := offset_lt_of_mem_commentedFigures hfigure
  have hstart := (Text.startOfLine_spec (Nat.le_of_lt hlt)).1
  have hcommentable : figure.isCommentable text (segment text) = true :=
    (List.mem_filter.mp hfigure).2
  simp only [FigureReference.isCommentable, Bool.and_eq_true, Bool.or_eq_true,
    isReplaceable_eq (Nat.lt_of_le_of_lt hstart hlt), isInFigure_eq] at hcommentable
  obtain ⟨hlength, hend⟩ := length_firstLine hmissing
  obtain ⟨item, hitem, hfirst⟩ := exists_head?_firstLine hmissing
  refine ⟨item, hfirst, fun hfree => ?_, fun hinside => ?_⟩
  · have hbehind := startsFree_behind (Nat.le_of_lt hlt) hclosed hitem hfree
    rw [behindFirstLine, ← drop_length_takeWhile, ← firstLine, hlength, List.drop_drop,
      Nat.add_sub_cancel' (by omega)]
    exact hbehind
  · rw [hitem, Option.any_some, Option.any_some, hinside] at hcommentable
    have henvironment := hcommentable.2.resolve_left (by decide)
    simp only [ByteClass.isInEnvironment, Bool.and_eq_true, beq_iff_eq] at henvironment
    exact henvironment.1

theorem classedLines_commentOutMissing (hmarker : IsPlainMarker options.marker)
    (hclosed : ∀ figure ∈ commentedFigures disk options directory text,
      figure.HasClosedLine text) :
    classedLines (commentOutMissing disk options directory text).draft.apply =
      (classedLines text).mapIdx fun number line =>
        if number ∈ (commentedFigures disk options directory text).map
            (Text.lineNumber text ·.offset) then markLine options.marker line
        else line := by
  obtain ⟨starts, hsorted, hstarts, hout⟩ := @exists_starts disk options directory text
  rw [hout, classedLines_withMarks hmarker hsorted]
  · simp only [mem_map_lineNumber_iff hstarts]
  · intro start hstart
    obtain ⟨figure, hfigure, rfl⟩ := (hstarts start).mp hstart
    exact (startOfLine_spec_of_mem hfigure).1
  · intro start hstart
    obtain ⟨figure, hfigure, rfl⟩ := (hstarts start).mp hstart
    exact lineIsMarkable hfigure (hclosed figure hfigure)

end

end Repair

end LatexIntegrity
