import Mathlib.Data.List.Basic
import LatexIntegrity.Edit

/-!
# Splicing edits into a text

Edits that follow one another can be applied at once: the gaps between them are copied,
and each replacement stands where the replaced bytes were.  Applying them one by one from
the last to the first gives the same text.
-/

namespace LatexIntegrity

namespace Text

theorem take_append_slice (text : Text) {start stop : Nat} (h : start ≤ stop) :
    text.take start ++ text.slice start stop = text.take stop := by
  unfold slice
  rw [← List.take_add, Nat.add_sub_cancel' h]

theorem drop_eq_drop_drop (text : Text) {start middle : Nat} (h : start ≤ middle) :
    text.drop middle = (text.drop start).drop (middle - start) := by
  rw [List.drop_drop, Nat.add_sub_cancel' h]

theorem slice_append_slice (text : Text) {start middle stop : Nat} (hstart : start ≤ middle)
    (hstop : middle ≤ stop) :
    text.slice start middle ++ text.slice middle stop = text.slice start stop := by
  unfold slice
  rw [drop_eq_drop_drop text hstart, ← List.take_add]
  congr 1
  omega

theorem slice_append_drop (text : Text) {start middle : Nat} (h : start ≤ middle) :
    text.slice start middle ++ text.drop middle = text.drop start := by
  unfold slice
  rw [drop_eq_drop_drop text h, List.take_append_drop]

theorem slice_take (text : Text) {start stop limit : Nat} (h : stop ≤ limit) :
    slice (text.take limit) start stop = text.slice start stop := by
  unfold slice
  rw [List.drop_take, List.take_take, Nat.min_eq_left (by omega)]

theorem slice_middle (before body rest : Text) :
    slice (before ++ (body ++ rest)) before.length (before.length + body.length) = body := by
  simp [slice]

def HoldsInOrder : List Text → Text → Prop
  | [], _ => True
  | piece :: rest, text => ∃ before after, text = before ++ (piece ++ after) ∧
      HoldsInOrder rest after

theorem HoldsInOrder.append {pieces : List Text} {text : Text} (h : HoldsInOrder pieces text)
    (before : Text) : HoldsInOrder pieces (before ++ text) := by
  cases pieces with
  | nil => trivial
  | cons piece rest =>
      obtain ⟨first, after, rfl, hrest⟩ := h
      exact ⟨before ++ first, after, by simp, hrest⟩

end Text

namespace Edit

/-- No byte that one edit replaces, and no place at which it inserts, is inside the other. -/
def IsApart (first second : Edit) : Prop :=
  first.offset + first.length ≤ second.offset ∨ second.offset + second.length ≤ first.offset

instance : Std.Symm IsApart := ⟨fun _ _ h => h.symm⟩

def Follow (edits : List Edit) : Prop :=
  edits.Pairwise fun first second => first.offset + first.length ≤ second.offset

/-- The text from `position` on with the edits in it. -/
def splice (text : Text) : Nat → List Edit → Text
  | position, [] => text.drop position
  | position, edit :: rest =>
      text.slice position edit.offset ++ edit.replacement ++
        splice text (edit.offset + edit.length) rest

variable {text : Text} {edits : List Edit} {position : Nat}

/-- Applying edits from the last to the first is splicing them into the text. -/
theorem foldr_apply_eq (hfollow : Follow edits)
    (hlower : ∀ edit ∈ edits, position ≤ edit.offset)
    (hupper : ∀ edit ∈ edits, edit.offset + edit.length ≤ text.length) :
    edits.foldr apply text = text.take position ++ splice text position edits := by
  induction edits generalizing position with
  | nil => simp [splice]
  | cons edit rest ih =>
      obtain ⟨hnext, hrest⟩ := List.pairwise_cons.mp hfollow
      obtain ⟨hposition, -⟩ := List.forall_mem_cons.mp hlower
      obtain ⟨hend, hupper⟩ := List.forall_mem_cons.mp hupper
      have hlength : (text.take (edit.offset + edit.length)).length =
          edit.offset + edit.length := List.length_take_of_le hend
      rw [List.foldr_cons, ih hrest hnext hupper, apply, List.drop_left' hlength,
        List.take_append_of_le_length (by omega), List.take_take, Nat.min_eq_left (by omega),
        splice, ← Text.take_append_slice text hposition]
      simp

theorem splice_eq_slice_append {middle : Nat} (hmiddle : position ≤ middle)
    (h : ∀ edit ∈ edits, middle ≤ edit.offset) :
    splice text position edits = text.slice position middle ++ splice text middle edits := by
  cases edits with
  | nil => exact (text.slice_append_drop hmiddle).symm
  | cons edit rest =>
      rw [splice, splice, ← text.slice_append_slice hmiddle (h edit List.mem_cons_self)]
      simp

theorem splice_eq_append {stop : Nat} (hposition : position ≤ stop) (hfollow : Follow edits)
    (hapart : ∀ edit ∈ edits, edit.offset < stop ∧ edit.offset + edit.length ≤ stop ∨
      stop ≤ edit.offset) :
    splice text position edits =
      splice (text.take stop) position (edits.filter (·.offset < stop)) ++
        splice text stop (edits.filter (stop ≤ ·.offset)) := by
  induction edits generalizing position with
  | nil =>
      simp only [List.filter_nil, splice, List.drop_take]
      exact (text.slice_append_drop hposition).symm
  | cons edit rest ih =>
      obtain ⟨hnext, hrest⟩ := List.pairwise_cons.mp hfollow
      obtain ⟨hedit, hapart'⟩ := List.forall_mem_cons.mp hapart
      rcases hedit with ⟨hlt, hend⟩ | hle
      · rw [List.filter_cons_of_pos (by simpa using hlt),
          List.filter_cons_of_neg (by simpa using hlt), splice, splice,
          text.slice_take (Nat.le_of_lt hlt), ih hend hrest hapart']
        simp
      · -- All edits are behind the place.
        have hbehind : ∀ other ∈ edit :: rest, stop ≤ other.offset := by
          intro other hother
          rcases List.mem_cons.mp hother with rfl | hother
          · exact hle
          · have := hnext other hother
            omega
        have hnone : (edit :: rest).filter (·.offset < stop) = [] :=
          List.filter_eq_nil_iff.mpr fun other hother => by simpa using hbehind other hother
        have hall : (edit :: rest).filter (stop ≤ ·.offset) = edit :: rest :=
          List.filter_eq_self.mpr fun other hother => by simpa using hbehind other hother
        rw [hnone, hall, splice_eq_slice_append hposition hbehind]
        congr 1
        rw [splice, List.drop_take]
        rfl

theorem holdsInOrder_cons {pieces : List Text} {start stop : Nat} (hstart : position ≤ start)
    (hstop : start ≤ stop) (h : ∀ edit ∈ edits, stop ≤ edit.offset)
    (hpieces : Text.HoldsInOrder pieces (splice text stop edits)) :
    Text.HoldsInOrder (text.slice start stop :: pieces) (splice text position edits) := by
  refine ⟨text.slice position start, _, ?_, hpieces⟩
  rw [splice_eq_slice_append (Nat.le_trans hstart hstop) h, ← text.slice_append_slice hstart hstop,
    List.append_assoc]

theorem holdsInOrder_splice {spans : List Span} (hfollow : Follow edits)
    (hspans : spans.Pairwise fun first second => first.stop ≤ second.start)
    (hwithin : ∀ span ∈ spans, position ≤ span.start ∧ span.start ≤ span.stop)
    (huntouched : ∀ span ∈ spans, ∀ edit ∈ edits,
      edit.offset + edit.length ≤ span.start ∨ span.stop ≤ edit.offset) :
    Text.HoldsInOrder (spans.map fun span => text.slice span.start span.stop)
      (splice text position edits) := by
  induction spans generalizing position edits with
  | nil => trivial
  | cons span others ihSpans =>
      obtain ⟨hothers, hpairwise⟩ := List.pairwise_cons.mp hspans
      -- The edits in front of the span are passed one by one.
      induction edits generalizing position with
      | nil =>
          obtain ⟨hspan, hwithin⟩ := List.forall_mem_cons.mp hwithin
          apply holdsInOrder_cons hspan.1 hspan.2 (by simp)
          apply ihSpans hfollow hpairwise
          · exact fun other hother => ⟨hothers other hother, (hwithin other hother).2⟩
          · simp
      | cons edit rest ih =>
          obtain ⟨hnext, hrest⟩ := List.pairwise_cons.mp hfollow
          obtain ⟨hspan, hwithin'⟩ := List.forall_mem_cons.mp hwithin
          obtain ⟨huntouchedSpan, huntouched'⟩ := List.forall_mem_cons.mp huntouched
          obtain ⟨hedit, -⟩ := List.forall_mem_cons.mp huntouchedSpan
          rcases hedit with hbefore | hbehind
          · apply Text.HoldsInOrder.append
            apply ih hrest
            · intro other hother
              rcases List.mem_cons.mp hother with rfl | hother'
              · exact ⟨hbefore, hspan.2⟩
              · have hle := hothers other hother'
                have hwide := (hwithin' other hother').2
                omega
            · exact fun other hother edit hedit =>
                huntouched other hother edit (List.mem_cons_of_mem _ hedit)
          · apply holdsInOrder_cons hspan.1 hspan.2
            · intro other hother
              rcases List.mem_cons.mp hother with rfl | hother
              · exact hbehind
              · have hle := hnext other hother
                omega
            · apply ihSpans hfollow hpairwise _ huntouched'
              exact fun other hother => ⟨hothers other hother, (hwithin' other hother).2⟩

end Edit

end LatexIntegrity
