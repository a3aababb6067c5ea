import Mathlib.Data.Nat.Count
import Mathlib.Data.Prod.Lex
import Mathlib.Order.Bounds.Basic
import LatexIntegrity.Proofs.Source.RepairedLines

/-!
# Offsets and locations

The location of an offset is the number of its line and the place in that line.  Up to the end
of a document whose numbers fit into 32 bits no two offsets have the same location, locations
are in the order of the offsets, and each offset is found again from its location.
-/

namespace LatexIntegrity

theorem isGreatest_getD_countP {first place : Nat} {rest : List Nat}
    (h : (first :: rest).Pairwise (· < ·)) (hfirst : first ≤ place) :
    IsGreatest {start | start ∈ first :: rest ∧ start ≤ place}
      ((first :: rest).getD (rest.countP (· ≤ place)) 0) := by
  induction rest generalizing first with
  | nil => simp [IsGreatest, upperBounds, hfirst]
  | cons next rest ih =>
      obtain ⟨hbefore, hrest⟩ := List.pairwise_cons.mp h
      by_cases hnext : next ≤ place
      · obtain ⟨⟨hmem, hle⟩, hgreatest⟩ := ih hrest hnext
        rw [List.countP_cons_of_pos (by simpa using hnext), List.getD_cons_succ]
        refine ⟨⟨List.mem_cons_of_mem _ hmem, hle⟩, ?_⟩
        rintro start ⟨hstart, hplace⟩
        rcases List.mem_cons.mp hstart with rfl | hstart
        · exact (hbefore _ hmem).le
        · exact hgreatest ⟨hstart, hplace⟩
      · have hnone : (next :: rest).countP (· ≤ place) = 0 := by
          refine List.countP_eq_zero.mpr fun later hlater => ?_
          rcases List.mem_cons.mp hlater with rfl | hlater
          · simpa using hnext
          · have := (List.pairwise_cons.mp hrest).1 later hlater
            simp only [decide_eq_true_eq]
            omega
        rw [hnone, List.getD_cons_zero]
        refine ⟨⟨List.mem_cons_self, hfirst⟩, ?_⟩
        rintro start ⟨hstart, hplace⟩
        rcases List.mem_cons.mp hstart with rfl | hstart
        · exact Nat.le_refl _
        · exact absurd (decide_eq_true hplace) (List.countP_eq_zero.mp hnone start hstart)

namespace Document

/-- A line feed stands at the offset, and more of the text behind it. -/
def EndsLineAt (document : Document) (offset : Nat) : Prop :=
  document.text[offset]? = some ('\n' : UInt8) ∧ offset + 1 < document.size

instance (document : Document) : DecidablePred document.EndsLineAt :=
  fun _ => inferInstanceAs (Decidable (_ ∧ _))

/-- A line begins at the offset: the first one, or one behind the end of another one. -/
def BeginsLineAt (document : Document) (start : Nat) : Prop :=
  start = 0 ∨ ∃ feed, document.EndsLineAt feed ∧ start = feed + 1

def startOf (document : Document) (line : Nat) : Nat := document.lineStarts.getD (line - 1) 0

def offsetAt (document : Document) (location : Location) : Nat :=
  document.startOf location.line.toNat + (location.column.toNat - 1)

/-! ## Line starts -/

theorem mem_startsBehindFeeds_iff {start place : Nat} {text : Text} :
    place ∈ startsBehindFeeds start text ↔ ∃ distance, text[distance]? = some ('\n' : UInt8) ∧
      distance + 1 < text.length ∧ place = start + distance + 1 := by
  induction text generalizing start with
  | nil => simp [startsBehindFeeds]
  | cons b rest ih =>
      have hcons : place ∈ startsBehindFeeds start (b :: rest) ↔
          (b = '\n' ∧ rest ≠ [] ∧ place = start + 1) ∨
            place ∈ startsBehindFeeds (start + 1) rest := by
        by_cases hb : b = ('\n' : UInt8) <;> by_cases hrest : rest = [] <;>
          simp [startsBehindFeeds, hb, hrest]
      rw [hcons, ih]
      constructor
      · rintro (⟨rfl, hrest, rfl⟩ | ⟨distance, hfeed, hlt, rfl⟩)
        · exact ⟨0, rfl, by simpa [List.length_pos_iff] using hrest, rfl⟩
        · exact ⟨distance + 1, hfeed, by simpa using hlt, by omega⟩
      · rintro ⟨_ | distance, hfeed, hlt, rfl⟩
        · exact .inl ⟨by simpa using hfeed, by simpa [List.length_pos_iff] using hlt, rfl⟩
        · exact .inr ⟨distance, hfeed, by simpa using hlt, by omega⟩

variable {document : Document}

theorem mem_lineStarts_iff {start : Nat} :
    start ∈ document.lineStarts ↔ document.BeginsLineAt start := by
  rw [lineStarts, List.mem_cons, mem_startsBehindFeeds_iff]
  simp only [BeginsLineAt, EndsLineAt, size, Nat.zero_add, and_assoc]

theorem count_endsLineAt (document : Document) (place : Nat) :
    Nat.count document.EndsLineAt place =
      (document.text.take (min place (document.size - 1))).count ('\n' : UInt8) := by
  induction place with
  | zero => simp
  | succ place ih =>
      rw [Nat.count_succ, ih]
      by_cases hlt : place + 1 < document.size
      · rw [Nat.min_eq_left (by omega), Nat.min_eq_left (by omega), List.take_add_one,
          List.count_append]
        have hget := List.getElem?_eq_getElem (show place < document.text.length by
          unfold size at hlt; omega)
        simp [EndsLineAt, hlt, hget, List.count_singleton]
      · rw [Nat.min_eq_right (by omega), Nat.min_eq_right (by omega),
          if_neg fun h : document.EndsLineAt place => hlt h.2, Nat.add_zero]

theorem countP_lineStarts_eq (document : Document) (place : Nat) :
    document.lineStarts.countP (· ≤ place) = Nat.count document.EndsLineAt place + 1 := by
  rw [countP_lineStarts, count_endsLineAt]

theorem lineCount_eq (document : Document) :
    document.lineCount = Nat.count document.EndsLineAt document.size + 1 := by
  rw [← countP_lineStarts_eq, lineCount, eq_comm, List.countP_eq_length]
  intro start hstart
  rcases mem_lineStarts_iff.mp hstart with rfl | ⟨feed, hfeed, rfl⟩
  · simp
  · simpa using hfeed.2.le

theorem isGreatest_startOf (document : Document) (place : Nat) :
    IsGreatest {start | document.BeginsLineAt start ∧ start ≤ place}
      (document.startOf (Nat.count document.EndsLineAt place + 1)) := by
  have hgreatest := isGreatest_getD_countP document.pairwise_lineStarts (Nat.zero_le place)
  have hcount := document.countP_lineStarts_eq place
  rw [lineStarts, List.countP_cons_of_pos (by simp), Nat.add_right_cancel_iff] at hcount
  simp only [← mem_lineStarts_iff]
  rwa [hcount] at hgreatest

/-! ## Locations -/

section Fits

variable (h : document.size < 2 ^ 32 - 1) (offset : Nat)

include h

theorem toNat_line_locate :
    (document.locate offset).line.toNat =
      Nat.count document.EndsLineAt (min offset document.size) + 1 := by
  have hle : Nat.count document.EndsLineAt (min offset document.size) ≤ min offset document.size :=
    Nat.count_le _
  rw [locate]
  dsimp only
  rw [bisect_lineStarts, countP_lineStarts_eq]
  exact Nat.mod_eq_of_lt (by omega)

theorem toNat_column_locate :
    (document.locate offset).column.toNat =
      min offset document.size - document.startOf (document.locate offset).line.toNat + 1 := by
  rw [toNat_line_locate h, locate]
  dsimp only
  rw [bisect_lineStarts, countP_lineStarts_eq]
  exact Nat.mod_eq_of_lt (by omega)

theorem startOf_locate_le :
    document.startOf (document.locate offset).line.toNat ≤ min offset document.size := by
  rw [toNat_line_locate h]
  exact (isGreatest_startOf document _).1.2

theorem offsetAt_locate :
    document.offsetAt (document.locate offset) = min offset document.size := by
  rw [offsetAt, toNat_column_locate h, Nat.add_sub_cancel,
    Nat.add_sub_of_le (startOf_locate_le h offset)]

theorem locate_lt_locate {offset other : Nat} (hlt : offset < other)
    (hother : other ≤ document.size) :
    toLex ((document.locate offset).line.toNat, (document.locate offset).column.toNat) <
      toLex ((document.locate other).line.toNat, (document.locate other).column.toNat) := by
  have hline : (document.locate offset).line.toNat ≤ (document.locate other).line.toNat := by
    rw [toNat_line_locate h, toNat_line_locate h]
    exact Nat.succ_le_succ (Nat.count_monotone _ (by omega))
  rw [Prod.Lex.toLex_lt_toLex]
  rcases hline.lt_or_eq with hline | hline
  · exact .inl hline
  · have hstart := startOf_locate_le h offset
    refine .inr ⟨hline, ?_⟩
    simp only
    rw [toNat_column_locate h, toNat_column_locate h, ← hline]
    omega

end Fits

/--
In a document whose locations fit into 32 bits, the line of an offset is counted by the line
feeds before it that more text follows, and its column by the bytes from the start of this line.
An offset behind the end counts as the end.  Locations are in the order of the offsets, and the
offset is found again from its location.
-/
theorem locate_exact (document : Document) (h : document.size < 2 ^ 32 - 1) :
    (∀ offset,
      let place := min offset document.size
      let location := document.locate offset
      location.line.toNat = 1 + Nat.count document.EndsLineAt place ∧
        (∃ start, IsGreatest {start | document.BeginsLineAt start ∧ start ≤ place} start ∧
          location.column.toNat = 1 + (place - start)) ∧
        1 ≤ location.line.toNat ∧ location.line.toNat ≤ document.lineCount ∧
        document.offsetAt location = place) ∧
      StrictMonoOn (fun offset => toLex ((document.locate offset).line.toNat,
        (document.locate offset).column.toNat)) (Set.Iic document.size) ∧
      Set.InjOn document.locate (Set.Iic document.size) := by
  refine ⟨fun offset => ?_, ?_, ?_⟩
  · have hline := toNat_line_locate h offset
    have hcolumn := toNat_column_locate h offset
    have hle : Nat.count document.EndsLineAt (min offset document.size) ≤
        Nat.count document.EndsLineAt document.size := Nat.count_monotone _ (Nat.min_le_right _ _)
    rw [hline] at hcolumn
    refine ⟨by omega, ⟨_, isGreatest_startOf document _, by omega⟩, by omega, ?_,
      offsetAt_locate h offset⟩
    rw [hline, lineCount_eq]
    omega
  · exact fun offset _ other hother hlt => locate_lt_locate h hlt hother
  · intro offset hoffset other hother hsame
    have hback := congrArg document.offsetAt hsame
    rwa [offsetAt_locate h, offsetAt_locate h, Nat.min_eq_left hoffset, Nat.min_eq_left hother]
      at hback

/-- The offsets of an empty line, of the feed at the end, and of the end on the same line. -/
theorem locate_exact_empty :
    let document : Document := { text := "a\n\nb\n" }
    document.size < 2 ^ 32 - 1 ∧ document.offsetAt (document.locate 2) = 2 ∧
      document.offsetAt (document.locate 9) = 5 ∧
      (document.locate 5).line.toNat ≤ document.lineCount ∧
      document.locate 5 = { line := 3, column := 3 } := by
  intro document
  have hsize : document.size < 2 ^ 32 - 1 := by decide
  obtain ⟨hat, -, -⟩ := locate_exact document hsize
  obtain ⟨-, -, -, -, hempty⟩ := hat 2
  obtain ⟨-, -, -, -, hbehind⟩ := hat 9
  exact ⟨hsize, hempty, hbehind, (hat 5).2.2.2.1, by decide +kernel⟩

end Document

end LatexIntegrity
