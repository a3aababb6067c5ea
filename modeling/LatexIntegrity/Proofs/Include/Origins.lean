import Mathlib.Algebra.Ring.Parity
import Mathlib.Data.Set.Function
import LatexIntegrity.Include.Expansion
import LatexIntegrity.Proofs.Edit.Splice
import LatexIntegrity.Proofs.Span.Tiling

/-!
# Where the bytes of an expanded document come from

An expanded document is a row of pieces: in turn a part of the main document and the whole
of an input.  Each of its offsets lies in one piece, even where pieces are empty and begin
at the same offset, and the search over the beginnings of the fragments finds that piece.
-/

namespace LatexIntegrity

/-- An input that has a document and takes the place of its command. -/
structure Inclusion where
  command : InputCommand
  document : Document
  deriving DecidableEq, Repr

namespace Inclusion

/--
The inputs that have a document, do not begin before `cursor` or the end of the one
accepted before, and end in a main document of `size` bytes.
-/
def accepted (size cursor : Nat) : List ResolvedInput → List Inclusion
  | [] => []
  | ⟨_, none⟩ :: rest => accepted size cursor rest
  | ⟨command, some document⟩ :: rest =>
      if cursor ≤ command.start ∧ command.stop ≤ size then
        ⟨command, document⟩ :: accepted size command.stop rest
      else accepted size cursor rest

def edit (inclusion : Inclusion) : Edit :=
  ⟨inclusion.command.start, inclusion.command.stop - inclusion.command.start,
    inclusion.document.text⟩

def Follow (size : Nat) : Nat → List Inclusion → Prop
  | cursor, [] => cursor ≤ size
  | cursor, inclusion :: rest =>
      cursor ≤ inclusion.command.start ∧ inclusion.command.start ≤ inclusion.command.stop ∧
        Follow size inclusion.command.stop rest

variable {size cursor : Nat} {inclusions : List Inclusion}

theorem follow_accepted {resolved : List ResolvedInput}
    (h : ∀ input ∈ resolved, input.command.start ≤ input.command.stop)
    (hcursor : cursor ≤ size) : Follow size cursor (accepted size cursor resolved) := by
  induction resolved generalizing cursor with
  | nil => exact hcursor
  | cons input rest ih =>
      obtain ⟨hinput, hrest⟩ := List.forall_mem_cons.mp h
      obtain ⟨command, document⟩ := input
      cases document with
      | none => exact ih hrest hcursor
      | some document =>
          rw [accepted]
          split
          · next hfits => exact ⟨hfits.1, hinput, ih hrest hfits.2⟩
          · exact ih hrest hcursor

theorem Follow.le (h : Follow size cursor inclusions) : cursor ≤ size := by
  induction inclusions generalizing cursor with
  | nil => exact h
  | cons inclusion rest ih =>
      obtain ⟨hstart, hstop, hrest⟩ := h
      have := ih hrest
      omega

theorem Follow.bounds (h : Follow size cursor inclusions) {inclusion : Inclusion}
    (hmem : inclusion ∈ inclusions) : cursor ≤ inclusion.command.start := by
  induction inclusions generalizing cursor with
  | nil => cases hmem
  | cons first rest ih =>
      obtain ⟨hstart, hstop, hrest⟩ := h
      rcases List.mem_cons.mp hmem with rfl | hmem
      · exact hstart
      · have := ih hrest hmem
        omega

end Inclusion

/-! ## Pieces -/

structure Piece where
  document : Document
  start : Nat
  stop : Nat
  deriving DecidableEq, Repr

namespace Piece

def length (piece : Piece) : Nat := piece.stop - piece.start

def body (piece : Piece) : Text := piece.document.text.slice piece.start piece.stop

def total (pieces : List Piece) : Nat := (pieces.map length).sum

def IsWithin (piece : Piece) : Prop := piece.stop ≤ piece.document.size

theorem length_body {piece : Piece} (h : piece.IsWithin) : piece.body.length = piece.length := by
  rw [IsWithin, Document.size] at h
  simp only [body, length, Text.slice, List.length_take, List.length_drop]
  omega

theorem total_append (first second : List Piece) :
    total (first ++ second) = total first + total second := by
  simp [total]

theorem length_flatMap_body {pieces : List Piece} (h : ∀ piece ∈ pieces, piece.IsWithin) :
    (pieces.flatMap body).length = total pieces := by
  rw [List.length_flatMap, total]
  congr 1
  exact List.map_congr_left fun piece hpiece => length_body (h piece hpiece)

def fragments (start : Nat) : List Piece → List Fragment
  | [] => []
  | piece :: rest =>
      ⟨start, piece.document, piece.start⟩ :: fragments (start + piece.length) rest

theorem fragments_append (start : Nat) (first second : List Piece) :
    fragments start (first ++ second) =
      fragments start first ++ fragments (start + total first) second := by
  induction first generalizing start with
  | nil => simp [fragments, total]
  | cons piece rest ih => simp [fragments, ih, total, Nat.add_assoc]

theorem length_fragments (start : Nat) (pieces : List Piece) :
    (fragments start pieces).length = pieces.length := by
  induction pieces generalizing start with
  | nil => rfl
  | cons piece rest ih => simp [fragments, ih]

theorem bounds_of_mem_fragments {start : Nat} {pieces : List Piece} {fragment : Fragment}
    (h : fragment ∈ fragments start pieces) :
    start ≤ fragment.start ∧ fragment.start ≤ start + total pieces := by
  induction pieces generalizing start with
  | nil => cases h
  | cons piece rest ih =>
      rw [fragments, List.mem_cons] at h
      have htotal : total (piece :: rest) = piece.length + total rest := rfl
      rcases h with rfl | h
      · simp
      · have := ih h
        omega

/-- The main document from `cursor` on and the inclusions, in turn. -/
def row (main : Document) (cursor : Nat) : List Inclusion → List Piece
  | [] => [⟨main, cursor, main.size⟩]
  | inclusion :: rest =>
      ⟨main, cursor, inclusion.command.start⟩ ::
        ⟨inclusion.document, 0, inclusion.document.size⟩ ::
          row main inclusion.command.stop rest

variable {main : Document} {cursor : Nat} {inclusions : List Inclusion}

theorem isWithin_of_mem_row (h : Inclusion.Follow main.size cursor inclusions) {piece : Piece}
    (hpiece : piece ∈ row main cursor inclusions) : piece.IsWithin := by
  induction inclusions generalizing cursor with
  | nil =>
      rw [row, List.mem_singleton] at hpiece
      rw [hpiece]
      exact Nat.le_refl _
  | cons inclusion rest ih =>
      obtain ⟨hstart, hstop, hrest⟩ := h
      rw [row, List.mem_cons, List.mem_cons] at hpiece
      rcases hpiece with rfl | rfl | hpiece
      · exact hstop.trans hrest.le
      · exact Nat.le_refl _
      · exact ih hrest hpiece

theorem flatMap_body_row (h : Inclusion.Follow main.size cursor inclusions) :
    (row main cursor inclusions).flatMap body =
      Edit.splice main.text cursor (inclusions.map Inclusion.edit) := by
  induction inclusions generalizing cursor with
  | nil =>
      have hrest : main.text.slice cursor main.size = main.text.drop cursor :=
        List.take_of_length_le (by simp [Document.size])
      simp [row, body, Edit.splice, hrest]
  | cons inclusion rest ih =>
      obtain ⟨-, hstop, hrest⟩ := h
      have hall : inclusion.document.text.slice 0 inclusion.document.size =
          inclusion.document.text := by
        simp [Text.slice, Document.size]
      have hbehind : inclusion.command.start +
          (inclusion.command.stop - inclusion.command.start) = inclusion.command.stop := by
        omega
      rw [row, List.flatMap_cons, List.flatMap_cons, ih hrest, List.map_cons, Edit.splice]
      simp only [body, hall, Inclusion.edit, hbehind, List.append_assoc]

end Piece

/-! ## The expansion as a row of pieces -/

namespace Expansion

def appendAll (expansion : Expansion) (pieces : List Piece) (count : Nat) : Expansion where
  main := expansion.main
  text := expansion.text ++ pieces.flatMap Piece.body
  fragments := expansion.fragments ++ Piece.fragments expansion.text.length pieces
  included := expansion.included + count

variable {expansion : Expansion}

theorem appendAll_append {first : List Piece} (hfirst : ∀ piece ∈ first, piece.IsWithin)
    (second : List Piece) (count count' : Nat) :
    (expansion.appendAll first count).appendAll second count' =
      expansion.appendAll (first ++ second) (count + count') := by
  simp [appendAll, Piece.fragments_append, Piece.length_flatMap_body hfirst, Nat.add_assoc]

theorem appendAll_pair {first : Piece} (hfirst : first.IsWithin) (second : Piece) :
    { (expansion.append first.document first.start first.stop).append second.document
        second.start second.stop with included := expansion.included + 1 } =
      expansion.appendAll [first, second] 1 := by
  have hlength := Piece.length_body hfirst
  rw [Piece.body] at hlength
  simp [appendAll, append, Piece.fragments, Piece.body, hlength]

/-- Putting the inputs in appends a row of pieces. -/
theorem spliceFrom_eq {cursor : Nat} {resolved : List ResolvedInput}
    (hresolved : ∀ input ∈ resolved, input.command.start ≤ input.command.stop)
    (hcursor : cursor ≤ expansion.main.size) :
    spliceFrom cursor expansion resolved =
      let accepted := Inclusion.accepted expansion.main.size cursor resolved
      expansion.appendAll (Piece.row expansion.main cursor accepted) accepted.length := by
  induction resolved generalizing cursor expansion with
  | nil => simp [spliceFrom, Inclusion.accepted, Piece.row, appendAll, append, Piece.fragments,
      Piece.body]
  | cons input rest ih =>
      obtain ⟨hinput, hrest⟩ := List.forall_mem_cons.mp hresolved
      obtain ⟨command, document⟩ := input
      cases document with
      | none => exact ih hrest hcursor
      | some document =>
          -- A command inside another one's range is passed over, with the cursor left in place.
          by_cases hfits : cursor ≤ command.start ∧ command.stop ≤ expansion.main.size
          · have hpass : (decide (command.start < cursor) ||
                decide (expansion.main.size < command.stop)) = false := by
              simpa using hfits
            have hgap : Piece.IsWithin ⟨expansion.main, cursor, command.start⟩ :=
              hinput.trans hfits.2
            have hwhole : Piece.IsWithin ⟨document, 0, document.size⟩ := Nat.le_refl _
            obtain ⟨pair, hpair, hwithin⟩ : ∃ pair : List Piece,
                pair = [⟨expansion.main, cursor, command.start⟩, ⟨document, 0, document.size⟩] ∧
                  ∀ piece ∈ pair, piece.IsWithin := ⟨_, rfl, by simp [hgap, hwhole]⟩
            have hstep : spliceFrom cursor expansion (⟨command, some document⟩ :: rest) =
                spliceFrom command.stop (expansion.appendAll pair 1) rest := by
              rw [spliceFrom, hpass, if_neg Bool.false_ne_true, hpair, ← appendAll_pair hgap]
              rfl
            rw [hstep, @ih (expansion.appendAll pair 1) command.stop hrest hfits.2]
            simp only [appendAll_append hwithin]
            rw [Inclusion.accepted, if_pos hfits, Nat.add_comm, hpair]
            rfl
          · have hpass : (decide (command.start < cursor) ||
                decide (expansion.main.size < command.stop)) = true := by
              simp only [Bool.or_eq_true, decide_eq_true_eq]
              omega
            rw [spliceFrom, hpass, if_pos rfl, ih hrest hcursor]
            simp only [Inclusion.accepted, if_neg hfits]

end Expansion

/-! ## The piece that an offset lies in -/

namespace Piece

structure IsAt (pieces : List Piece) (offset number place : Nat) (piece : Piece) : Prop where
  found : pieces[number]? = some piece
  start_le : piece.start ≤ place
  lt_stop : place < piece.stop
  offset_eq : offset = total (pieces.take number) + (place - piece.start)

variable {pieces : List Piece} {piece : Piece} {offset number place : Nat}

theorem exists_isAt (h : offset < total pieces) :
    ∃ number place piece, IsAt pieces offset number place piece := by
  induction pieces generalizing offset with
  | nil => exact absurd h (Nat.not_lt_zero _)
  | cons first rest ih =>
      have htotal : total (first :: rest) = first.length + total rest := rfl
      have hlength : first.length = first.stop - first.start := rfl
      by_cases hfirst : offset < first.length
      · refine ⟨0, first.start + offset, first, rfl, ?_, ?_, ?_⟩
        · omega
        · omega
        · simp [total]
      · obtain ⟨number, place, piece, hfound, hstart, hstop, hoffset⟩ :=
          ih (show offset - first.length < total rest by omega)
        refine ⟨number + 1, place, piece, by simpa using hfound, hstart, hstop, ?_⟩
        have htake : total ((first :: rest).take (number + 1)) =
            first.length + total (rest.take number) := rfl
        omega

theorem IsAt.split (h : IsAt pieces offset number place piece) :
    pieces = pieces.take number ++ (piece :: pieces.drop (number + 1)) := by
  obtain ⟨hnumber, hpiece⟩ := List.getElem?_eq_some_iff.mp h.found
  rw [← hpiece, ← List.drop_eq_getElem_cons hnumber, List.take_append_drop]

theorem IsAt.length_take (h : IsAt pieces offset number place piece) :
    (pieces.take number).length = number := by
  obtain ⟨hnumber, -⟩ := List.getElem?_eq_some_iff.mp h.found
  exact List.length_take_of_le (Nat.le_of_lt hnumber)

theorem IsAt.lt_total (h : IsAt pieces offset number place piece) : offset < total pieces := by
  have hlength : piece.length = piece.stop - piece.start := rfl
  have htotal : total (piece :: pieces.drop (number + 1)) =
      piece.length + total (pieces.drop (number + 1)) := rfl
  have hsplit := congrArg total h.split
  rw [total_append, htotal] at hsplit
  have := h.start_le
  have := h.lt_stop
  have := h.offset_eq
  omega

end Piece

namespace Expansion

def fragmentNumber (expansion : Expansion) (offset : Nat) : Nat :=
  bisect (·.start ≤ min offset expansion.text.length) expansion.fragments - 1

theorem origin_eq_of_fragment {expansion : Expansion} {offset : Nat} {fragment : Fragment}
    (h : expansion.fragments[expansion.fragmentNumber offset]? = some fragment) :
    expansion.origin offset =
      (fragment.document,
        fragment.source + (min offset expansion.text.length - fragment.start)) := by
  unfold fragmentNumber at h
  simp only [origin, h]

structure IsRow (expansion : Expansion) (pieces : List Piece) : Prop where
  within : ∀ piece ∈ pieces, piece.IsWithin
  text : expansion.text = pieces.flatMap Piece.body
  fragments : expansion.fragments = Piece.fragments 0 pieces

namespace IsRow

variable {expansion : Expansion} {pieces : List Piece} {piece : Piece}
variable {offset number place : Nat}

theorem length_text (h : expansion.IsRow pieces) :
    expansion.text.length = Piece.total pieces := by
  rw [h.text, Piece.length_flatMap_body h.within]

theorem bisect_eq (h : expansion.IsRow pieces)
    (hat : Piece.IsAt pieces offset number place piece) :
    bisect (·.start ≤ min offset expansion.text.length) expansion.fragments = number + 1 := by
  have hlt := hat.lt_total
  have hoffset := hat.offset_eq
  have hstart := hat.start_le
  have hstop := hat.lt_stop
  have hlength : piece.length = piece.stop - piece.start := rfl
  have hmin : min offset expansion.text.length = offset := by
    rw [h.length_text]
    omega
  have hsplit : expansion.fragments =
      (Piece.fragments 0 (pieces.take number) ++
        [⟨Piece.total (pieces.take number), piece.document, piece.start⟩]) ++
          Piece.fragments (Piece.total (pieces.take number) + piece.length)
            (pieces.drop (number + 1)) := by
    rw [h.fragments]
    conv_lhs => rw [hat.split]
    simp [Piece.fragments_append, Piece.fragments]
  rw [hmin, hsplit, bisect_append]
  · simp [Piece.length_fragments, hat.length_take]
  · intro fragment hfragment
    rw [decide_eq_true_eq]
    rcases List.mem_append.mp hfragment with hfragment | hfragment
    · have := Piece.bounds_of_mem_fragments hfragment
      omega
    · rw [List.mem_singleton.mp hfragment]
      simp only
      omega
  · intro fragment hfragment
    have := Piece.bounds_of_mem_fragments hfragment
    rw [decide_eq_false_iff_not]
    omega

theorem fragmentNumber_eq (h : expansion.IsRow pieces)
    (hat : Piece.IsAt pieces offset number place piece) :
    expansion.fragmentNumber offset = number := by
  rw [fragmentNumber, h.bisect_eq hat, Nat.add_sub_cancel]

theorem origin_eq (h : expansion.IsRow pieces)
    (hat : Piece.IsAt pieces offset number place piece) :
    expansion.origin offset = (piece.document, place) := by
  have hfragment : expansion.fragments[expansion.fragmentNumber offset]? =
      some ⟨Piece.total (pieces.take number), piece.document, piece.start⟩ := by
    rw [h.fragmentNumber_eq hat, h.fragments]
    conv_lhs => rw [hat.split]
    rw [Piece.fragments_append, List.getElem?_append_right (by
      rw [Piece.length_fragments, hat.length_take])]
    simp [Piece.length_fragments, hat.length_take, Piece.fragments]
  have hmin : min offset expansion.text.length = offset := by
    have := hat.lt_total
    rw [h.length_text]
    omega
  have hstart := hat.start_le
  have hoffset := hat.offset_eq
  rw [origin_eq_of_fragment hfragment, hmin]
  congr 1
  simp only
  omega

theorem getElem?_text (h : expansion.IsRow pieces)
    (hat : Piece.IsAt pieces offset number place piece) :
    expansion.text[offset]? = piece.document.text[place]? := by
  have hstart := hat.start_le
  have hstop := hat.lt_stop
  have hpiece : piece ∈ pieces := List.mem_of_getElem? hat.found
  have hlength : piece.length = piece.stop - piece.start := rfl
  have hbefore : ((pieces.take number).flatMap Piece.body).length =
      Piece.total (pieces.take number) :=
    Piece.length_flatMap_body fun piece hpiece => h.within piece (List.mem_of_mem_take hpiece)
  have hbody : piece.body[place - piece.start]? = piece.document.text[place]? := by
    rw [Piece.body, Text.slice, List.getElem?_take_of_lt (by omega), List.getElem?_drop,
      Nat.add_sub_cancel' hstart]
  rw [h.text, hat.split, List.flatMap_append, hat.offset_eq, ← hbefore,
    List.getElem?_append_right (Nat.le_add_right _ _), Nat.add_sub_cancel_left,
    List.flatMap_cons, List.getElem?_append_left, hbody]
  rw [Piece.length_body (h.within piece hpiece)]
  omega

theorem origin_of_le (h : expansion.IsRow pieces) {before : List Piece}
    (hlast : pieces = before ++ [piece]) (hpiece : piece.start ≤ piece.stop)
    (hoffset : expansion.text.length ≤ offset) :
    expansion.origin offset = (piece.document, piece.stop) := by
  have htotal : Piece.total pieces = Piece.total before + (piece.stop - piece.start) := by
    simp [hlast, Piece.total, Piece.length]
  have hsplit : expansion.fragments = Piece.fragments 0 before ++
      [⟨Piece.total before, piece.document, piece.start⟩] := by
    rw [h.fragments, hlast, Piece.fragments_append, Nat.zero_add]
    rfl
  have hmin : min offset expansion.text.length = Piece.total pieces := by
    rw [Nat.min_eq_right hoffset, h.length_text]
  have hnumber : expansion.fragmentNumber offset = before.length := by
    rw [fragmentNumber, hmin, ← List.append_nil expansion.fragments, bisect_append _ (by simp)]
    · simp [hsplit, Piece.length_fragments]
    · intro fragment hfragment
      rw [h.fragments] at hfragment
      have := Piece.bounds_of_mem_fragments hfragment
      rw [decide_eq_true_eq]
      omega
  have hfragment : expansion.fragments[expansion.fragmentNumber offset]? =
      some ⟨Piece.total before, piece.document, piece.start⟩ := by
    rw [hnumber, hsplit, List.getElem?_append_right (by rw [Piece.length_fragments])]
    simp [Piece.length_fragments]
  rw [origin_eq_of_fragment hfragment, hmin, htotal]
  congr 1
  simp only
  omega

end IsRow

end Expansion

/-! ## Kept bytes and included bytes -/

/-- A byte of the main document, or of the document of an inclusion, counted from 0 on. -/
inductive SourceByte where
  | main (place : Nat)
  | input (occurrence place : Nat)
  deriving DecidableEq, Repr

namespace SourceByte

def ofPiece (number place : Nat) : SourceByte :=
  if number % 2 = 0 then .main place else .input (number / 2) place

@[simp] theorem ofPiece_even (index place : Nat) : ofPiece (2 * index) place = .main place := by
  simp [ofPiece]

@[simp] theorem ofPiece_odd (index place : Nat) :
    ofPiece (2 * index + 1) place = .input index place := by
  have hhalf : (2 * index + 1) / 2 = index := by omega
  have hodd : (2 * index + 1) % 2 ≠ 0 := by omega
  rw [ofPiece, if_neg hodd, hhalf]

/-- The bytes that an expansion holds: what no command takes, and all of every inclusion. -/
def IsHeld (main : Document) (accepted : List Inclusion) : SourceByte → Prop
  | .main place =>
      place < main.size ∧ ∀ inclusion ∈ accepted,
        ¬(inclusion.command.start ≤ place ∧ place < inclusion.command.stop)
  | .input occurrence place =>
      ∃ inclusion, accepted[occurrence]? = some inclusion ∧ place < inclusion.document.size

def origin? (main : Document) (accepted : List Inclusion) : SourceByte → Option (Document × Nat)
  | .main place => some (main, place)
  | .input occurrence place => (accepted[occurrence]?).map fun inclusion =>
      (inclusion.document, place)

end SourceByte

namespace Piece

variable {main : Document} {cursor : Nat} {inclusions : List Inclusion}
variable {piece : Piece} {place : Nat}

theorem row_eq_concat (h : Inclusion.Follow main.size cursor inclusions) :
    ∃ before last, last ≤ main.size ∧
      row main cursor inclusions = before ++ [⟨main, last, main.size⟩] := by
  induction inclusions generalizing cursor with
  | nil => exact ⟨[], cursor, h, rfl⟩
  | cons inclusion rest ih =>
      obtain ⟨-, -, hrest⟩ := h
      obtain ⟨before, last, hlast, hrow⟩ := ih hrest
      exact ⟨_ :: _ :: before, last, hlast, by rw [row, hrow]; rfl⟩

theorem row_odd (main : Document) (cursor : Nat) (inclusions : List Inclusion)
    (occurrence : Nat) :
    (row main cursor inclusions)[2 * occurrence + 1]? =
      (inclusions[occurrence]?).map fun inclusion =>
        ⟨inclusion.document, 0, inclusion.document.size⟩ := by
  induction inclusions generalizing cursor occurrence with
  | nil => simp [row]
  | cons inclusion rest ih =>
      cases occurrence with
      | zero => rfl
      | succ occurrence =>
          have hbehind := ih inclusion.command.stop occurrence
          simpa [row, Nat.mul_add] using hbehind

theorem row_even_succ (main : Document) (cursor : Nat) (inclusion : Inclusion)
    (rest : List Inclusion) (index : Nat) :
    (row main cursor (inclusion :: rest))[2 * (index + 1)]? =
      (row main inclusion.command.stop rest)[2 * index]? := by
  simp [row, Nat.mul_add]

theorem of_row_even (h : Inclusion.Follow main.size cursor inclusions) {index : Nat}
    (hpiece : (row main cursor inclusions)[2 * index]? = some piece) :
    piece.document = main ∧ cursor ≤ piece.start := by
  induction inclusions generalizing cursor index with
  | nil =>
      cases index with
      | zero =>
          cases hpiece
          exact ⟨rfl, Nat.le_refl _⟩
      | succ index => simp [row, Nat.mul_add] at hpiece
  | cons inclusion rest ih =>
      obtain ⟨hstart, hstop, hrest⟩ := h
      cases index with
      | zero =>
          cases hpiece
          exact ⟨rfl, Nat.le_refl _⟩
      | succ index =>
          rw [row_even_succ] at hpiece
          obtain ⟨hdocument, hbehind⟩ := ih hrest hpiece
          exact ⟨hdocument, by omega⟩

theorem exists_row_even_iff (h : Inclusion.Follow main.size cursor inclusions) :
    (∃ index piece, (row main cursor inclusions)[2 * index]? = some piece ∧
        piece.start ≤ place ∧ place < piece.stop) ↔
      cursor ≤ place ∧ place < main.size ∧ ∀ inclusion ∈ inclusions,
        ¬(inclusion.command.start ≤ place ∧ place < inclusion.command.stop) := by
  -- The pieces with even numbers are those of the main document.
  induction inclusions generalizing cursor with
  | nil =>
      constructor
      · rintro ⟨index, piece, hpiece, hplace⟩
        cases index with
        | zero =>
            cases hpiece
            simpa using hplace
        | succ index => simp [row, Nat.mul_add] at hpiece
      · rintro ⟨hstart, hstop, -⟩
        exact ⟨0, _, rfl, hstart, hstop⟩
  | cons inclusion rest ih =>
      obtain ⟨hstart, hstop, hrest⟩ := h
      have hsize := hrest.le
      have hafter : ∀ other ∈ rest, inclusion.command.stop ≤ other.command.start :=
        fun other hother => hrest.bounds hother
      rw [List.forall_mem_cons]
      constructor
      · rintro ⟨index, piece, hpiece, hplace⟩
        cases index with
        | zero =>
            cases hpiece
            simp only at hplace
            refine ⟨hplace.1, by omega, by omega, fun other hother => ?_⟩
            have := hafter other hother
            omega
        | succ index =>
            rw [row_even_succ] at hpiece
            obtain ⟨hcursor, hlt, hothers⟩ := (ih hrest).mp ⟨index, piece, hpiece, hplace⟩
            exact ⟨by omega, hlt, by omega, hothers⟩
      · rintro ⟨hcursor, hlt, hnot, hothers⟩
        by_cases hgap : place < inclusion.command.start
        · exact ⟨0, _, rfl, hcursor, hgap⟩
        · obtain ⟨index, piece, hpiece, hplace⟩ := (ih hrest).mpr ⟨by omega, hlt, hothers⟩
          exact ⟨index + 1, piece, (row_even_succ _ _ _ _ _).trans hpiece, hplace⟩

theorem row_even_unique (h : Inclusion.Follow main.size cursor inclusions)
    {index index' : Nat} {piece' : Piece}
    (hpiece : (row main cursor inclusions)[2 * index]? = some piece)
    (hpiece' : (row main cursor inclusions)[2 * index']? = some piece')
    (hplace : piece.start ≤ place ∧ place < piece.stop)
    (hplace' : piece'.start ≤ place ∧ place < piece'.stop) : index = index' := by
  induction inclusions generalizing cursor index index' with
  | nil =>
      have hzero : ∀ {index : Nat} {piece : Piece},
          (row main cursor [])[2 * index]? = some piece → index = 0 := by
        intro index piece hpiece
        cases index with
        | zero => rfl
        | succ index => simp [row, Nat.mul_add] at hpiece
      rw [hzero hpiece, hzero hpiece']
  | cons inclusion rest ih =>
      obtain ⟨hstart, hstop, hrest⟩ := h
      cases index with
      | zero =>
          cases index' with
          | zero => rfl
          | succ index' =>
              cases hpiece
              rw [row_even_succ] at hpiece'
              have := (of_row_even hrest hpiece').2
              simp only at hplace
              omega
      | succ index =>
          rw [row_even_succ] at hpiece
          cases index' with
          | zero =>
              cases hpiece'
              have := (of_row_even hrest hpiece).2
              simp only at hplace'
              omega
          | succ index' =>
              rw [row_even_succ] at hpiece'
              rw [ih hrest hpiece hpiece']

end Piece

/-! ## Origins -/

namespace Expansion

def sourceByte (expansion : Expansion) (offset : Nat) : SourceByte :=
  .ofPiece (expansion.fragmentNumber offset) (expansion.origin offset).2

variable {expansion : Expansion} {main : Document} {inclusions : List Inclusion}
variable {offset number place : Nat} {piece : Piece}

theorem IsRow.sourceByte_eq {pieces : List Piece} (h : expansion.IsRow pieces)
    (hat : Piece.IsAt pieces offset number place piece) :
    expansion.sourceByte offset = .ofPiece number place := by
  rw [sourceByte, h.fragmentNumber_eq hat, h.origin_eq hat]

theorem isHeld_iff (h : Inclusion.Follow main.size 0 inclusions) {byte : SourceByte} :
    byte.IsHeld main inclusions ↔
      ∃ number place piece, (Piece.row main 0 inclusions)[number]? = some piece ∧
        (piece.start ≤ place ∧ place < piece.stop) ∧ SourceByte.ofPiece number place = byte := by
  constructor
  · intro hheld
    cases byte with
    | main place =>
        obtain ⟨index, piece, hpiece, hplace⟩ := (Piece.exists_row_even_iff h).mpr
          ⟨Nat.zero_le place, hheld⟩
        exact ⟨2 * index, place, piece, hpiece, hplace, by simp⟩
    | input occurrence place =>
        obtain ⟨inclusion, hinclusion, hplace⟩ := hheld
        refine ⟨2 * occurrence + 1, place, ⟨inclusion.document, 0, inclusion.document.size⟩,
          ?_, ⟨Nat.zero_le place, hplace⟩, by simp⟩
        rw [Piece.row_odd, hinclusion]
        rfl
  · rintro ⟨number, place, piece, hpiece, hplace, rfl⟩
    obtain ⟨index, rfl | rfl⟩ := Nat.even_or_odd' number
    · rw [SourceByte.ofPiece_even]
      exact ((Piece.exists_row_even_iff h).mp ⟨index, piece, hpiece, hplace⟩).2
    · rw [Piece.row_odd, Option.map_eq_some_iff] at hpiece
      obtain ⟨inclusion, hinclusion, rfl⟩ := hpiece
      rw [SourceByte.ofPiece_odd]
      exact ⟨inclusion, hinclusion, hplace.2⟩

theorem origin?_ofPiece (h : Inclusion.Follow main.size 0 inclusions)
    (hpiece : (Piece.row main 0 inclusions)[number]? = some piece) :
    (SourceByte.ofPiece number place).origin? main inclusions =
      some (piece.document, place) := by
  obtain ⟨index, rfl | rfl⟩ := Nat.even_or_odd' number
  · rw [SourceByte.ofPiece_even, (Piece.of_row_even h hpiece).1]
    rfl
  · rw [Piece.row_odd, Option.map_eq_some_iff] at hpiece
    obtain ⟨inclusion, hinclusion, rfl⟩ := hpiece
    rw [SourceByte.ofPiece_odd, SourceByte.origin?, hinclusion]
    rfl

theorem ofPiece_injective (h : Inclusion.Follow main.size 0 inclusions)
    {number' place' : Nat} {piece' : Piece}
    (hpiece : (Piece.row main 0 inclusions)[number]? = some piece)
    (hpiece' : (Piece.row main 0 inclusions)[number']? = some piece')
    (hplace : piece.start ≤ place ∧ place < piece.stop)
    (hplace' : piece'.start ≤ place' ∧ place' < piece'.stop)
    (hsame : SourceByte.ofPiece number place = SourceByte.ofPiece number' place') :
    number = number' ∧ place = place' := by
  obtain ⟨index, rfl | rfl⟩ := Nat.even_or_odd' number <;>
    obtain ⟨index', rfl | rfl⟩ := Nat.even_or_odd' number' <;>
    simp only [SourceByte.ofPiece_even, SourceByte.ofPiece_odd, SourceByte.main.injEq,
      SourceByte.input.injEq, reduceCtorEq] at hsame
  · subst hsame
    rw [Piece.row_even_unique h hpiece hpiece' hplace hplace']
    exact ⟨rfl, rfl⟩
  · exact ⟨by rw [hsame.1], hsame.2⟩

theorem bijOn_sourceByte (h : Inclusion.Follow main.size 0 inclusions)
    (hrow : expansion.IsRow (Piece.row main 0 inclusions)) :
    Set.BijOn expansion.sourceByte {offset | offset < expansion.text.length}
      {byte | byte.IsHeld main inclusions} := by
  have hcover : ∀ offset < expansion.text.length, ∃ number place piece,
      Piece.IsAt (Piece.row main 0 inclusions) offset number place piece := by
    intro offset hoffset
    rw [hrow.length_text] at hoffset
    exact Piece.exists_isAt hoffset
  refine ⟨?_, ?_, ?_⟩
  · intro offset hoffset
    obtain ⟨number, place, piece, hat⟩ := hcover offset hoffset
    rw [Set.mem_ofPred_eq, hrow.sourceByte_eq hat, isHeld_iff h]
    exact ⟨number, place, piece, hat.found, ⟨hat.start_le, hat.lt_stop⟩, rfl⟩
  · intro offset hoffset offset' hoffset' hsame
    obtain ⟨number, place, piece, hat⟩ := hcover offset hoffset
    obtain ⟨number', place', piece', hat'⟩ := hcover offset' hoffset'
    rw [hrow.sourceByte_eq hat, hrow.sourceByte_eq hat'] at hsame
    obtain ⟨rfl, rfl⟩ := ofPiece_injective h hat.found hat'.found ⟨hat.start_le, hat.lt_stop⟩
      ⟨hat'.start_le, hat'.lt_stop⟩ hsame
    obtain rfl := Option.some.inj (hat.found.symm.trans hat'.found)
    rw [hat.offset_eq, hat'.offset_eq]
  · intro byte hbyte
    obtain ⟨number, place, piece, hpiece, hplace, rfl⟩ := (isHeld_iff h).mp hbyte
    have hat : Piece.IsAt (Piece.row main 0 inclusions) _ number place piece :=
      ⟨hpiece, hplace.1, hplace.2, rfl⟩
    refine ⟨_, ?_, hrow.sourceByte_eq hat⟩
    rw [Set.mem_ofPred_eq, hrow.length_text]
    exact hat.lt_total

theorem isRow_ofInputs {resolved : List ResolvedInput}
    (h : ∀ input ∈ resolved, input.command.start ≤ input.command.stop) :
    (ofInputs main resolved).IsRow
      (Piece.row main 0 (Inclusion.accepted main.size 0 resolved)) := by
  have hfollow := Inclusion.follow_accepted h (Nat.zero_le main.size)
  have heq : ofInputs main resolved = _ :=
    @spliceFrom_eq { main := main } 0 resolved h (Nat.zero_le _)
  refine ⟨fun piece hpiece => Piece.isWithin_of_mem_row hfollow hpiece, ?_, ?_⟩ <;> rw [heq] <;> rfl

end Expansion

/--
An expanded document is the main document with every accepted inclusion in place of its
command.  Each of its offsets is traced back to the byte that stands there, and the bytes
that it holds are each found at one offset.  What lies behind the end is traced back to the
end of the main document.
-/
theorem Expansion.origin_bijective (main : Document) (resolved : List ResolvedInput)
    (h : ∀ input ∈ resolved, input.command.start ≤ input.command.stop) :
    let accepted := Inclusion.accepted main.size 0 resolved
    let expansion := Expansion.ofInputs main resolved
    expansion.text = Edit.splice main.text 0 (accepted.map Inclusion.edit) ∧
      expansion.included = accepted.length ∧
      (∀ offset < expansion.text.length,
        (expansion.origin offset).2 < (expansion.origin offset).1.size ∧
          (expansion.origin offset).1.text[(expansion.origin offset).2]? =
            expansion.text[offset]? ∧
          (expansion.sourceByte offset).origin? main accepted = some (expansion.origin offset)) ∧
      Set.BijOn expansion.sourceByte {offset | offset < expansion.text.length}
        {byte | byte.IsHeld main accepted} ∧
      ∀ offset, expansion.text.length ≤ offset → expansion.origin offset = (main, main.size) := by
  intro accepted expansion
  have hfollow : Inclusion.Follow main.size 0 accepted :=
    Inclusion.follow_accepted h (Nat.zero_le main.size)
  have hrow : expansion.IsRow (Piece.row main 0 accepted) := Expansion.isRow_ofInputs h
  have hincluded : expansion.included = accepted.length := by
    have heq : expansion = _ := @Expansion.spliceFrom_eq { main := main } 0 resolved h
      (Nat.zero_le _)
    rw [heq]
    exact Nat.zero_add _
  refine ⟨?_, hincluded, fun offset hoffset => ?_, Expansion.bijOn_sourceByte hfollow hrow,
    fun offset hoffset => ?_⟩
  · rw [hrow.text, Piece.flatMap_body_row hfollow]
  · rw [hrow.length_text] at hoffset
    obtain ⟨number, place, piece, hat⟩ := Piece.exists_isAt hoffset
    rw [hrow.origin_eq hat, hrow.sourceByte_eq hat]
    refine ⟨?_, (hrow.getElem?_text hat).symm, Expansion.origin?_ofPiece hfollow hat.found⟩
    exact hat.lt_stop.trans_le (hrow.within piece (List.mem_of_getElem? hat.found))
  · obtain ⟨before, cursor, hcursor, hlast⟩ := Piece.row_eq_concat hfollow
    exact hrow.origin_of_le hlast hcursor hoffset

/-- One document put in twice, and a third input that begins inside the second. -/
theorem Expansion.origin_bijective_twice :
    let main : Document := ⟨"a\\input{s}b\\input{s}", "m", 1⟩
    let shared : Document := ⟨"xy", "s", 2⟩
    let resolved : List ResolvedInput :=
      [⟨⟨"s", 1, 10⟩, some shared⟩, ⟨⟨"s", 11, 20⟩, some shared⟩, ⟨⟨"s", 15, 20⟩, some shared⟩]
    (∀ input ∈ resolved, input.command.start ≤ input.command.stop) ∧
      (Expansion.ofInputs main resolved).text = "axybxy" ∧
      (Expansion.ofInputs main resolved).included = 2 ∧
      (Expansion.ofInputs main resolved).sourceByte 5 = .input 1 1 ∧
      (Expansion.ofInputs main resolved).origin 6 = (main, 20) := by
  intro main shared resolved
  have hordered : ∀ input ∈ resolved, input.command.start ≤ input.command.stop := by decide
  obtain ⟨htext, hincluded, -, -, hbehind⟩ :=
    Expansion.origin_bijective main resolved hordered
  have hbytes : (Expansion.ofInputs main resolved).text = "axybxy" := by
    rw [htext]
    decide
  refine ⟨hordered, hbytes, hincluded, by decide +kernel, ?_⟩
  exact hbehind 6 (by rw [hbytes]; decide)

end LatexIntegrity
