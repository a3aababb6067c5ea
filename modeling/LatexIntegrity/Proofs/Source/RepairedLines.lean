import Mathlib.Algebra.GroupWithZero.Nat
import LatexIntegrity.Proofs.Span.Tiling
import LatexIntegrity.Proofs.Text.LineEdits
import LatexIntegrity.Proofs.Text.WellFormed
import LatexIntegrity.Source.Document

/-!
# The repair of a text in pieces

Repair may be done on the pieces of a text that is cut where a character may begin.  Line
feeds are such places, so that each line is repaired by itself, and a line number in the
repaired text is the number of the same line in the file.
-/

namespace LatexIntegrity

namespace Text

theorem lineInduction {motive : Text → Prop} (last : ∀ line : Text, line.IsUnbroken → motive line)
    (more : ∀ line rest : Text, line.IsUnbroken → motive rest →
      motive (line ++ ('\n' : UInt8) :: rest))
    (text : Text) : motive text := by
  have hunbroken : ∀ line : Text, (∀ b ∈ line, (b == ('\n' : UInt8)) = false) →
      line.IsUnbroken := fun line hline hmem => Bool.false_ne_true (hline _ hmem).symm
  refine induction_lines (· == ('\n' : UInt8)) (fun line hline => last line (hunbroken line hline))
    (fun line feed rest hline hfeed hrest => ?_) text
  obtain rfl : feed = ('\n' : UInt8) := beq_iff_eq.mp hfeed
  exact more line rest (hunbroken line hline) hrest

theorem lines_append_feed {line : Text} (h : line.IsUnbroken) (rest : Text) :
    lines (line ++ ('\n' : UInt8) :: rest) = line :: lines rest := by
  have hline : ∀ b ∈ line, (b == ('\n' : UInt8)) = false :=
    fun b hb => beq_false_of_ne fun heq => h (heq ▸ hb)
  rw [lines_eq_splitOnP, lines_eq_splitOnP, splitOnP_line_append hline (beq_self_eq_true _)]

end Text

namespace Utf8

variable {first second text : Text} {lead : UInt8} {ranges : List ByteRange}

/-- No character that began before goes on at the head of the text. -/
def StartsCharacter (text : Text) : Prop := ∀ lead ∈ text.head?, isContinuation lead = false

instance : DecidablePred StartsCharacter := fun _ => inferInstanceAs (Decidable (∀ _ ∈ _, _))

theorem startsCharacter_feed (rest : Text) : StartsCharacter ('\n' :: rest) := by
  intro lead hlead
  rw [← Option.some.inj hlead]
  decide

/-! ## Chunks -/

theorem accepted_append (hranges : ∀ range ∈ ranges, range.Continues)
    (h : StartsCharacter second) (rest : Text) :
    accepted ranges (rest ++ second) = accepted ranges rest := by
  fun_induction accepted ranges rest with
  | case1 range ranges b rest hholds ih =>
      rw [List.cons_append, accepted, if_pos hholds,
        ih (List.forall_mem_cons.mp hranges).2]
  | case2 range ranges b rest hholds => rw [List.cons_append, accepted, if_neg hholds]
  | case3 ranges rest hempty =>
      cases ranges with
      | nil => simp [accepted]
      | cons range ranges =>
          cases rest with
          | cons b rest => exact absurd rfl (hempty _ _ _ _ rfl)
          | nil =>
              cases second with
              | nil => rfl
              | cons lead tail =>
                  have hlead := h lead rfl
                  rw [List.nil_append, accepted, if_neg]
                  intro hholds
                  rw [(hranges range List.mem_cons_self).2 lead hholds] at hlead
                  cases hlead

theorem firstChunk_append (h : StartsCharacter second) (lead : UInt8) (rest : Text) :
    firstChunk lead (rest ++ second) = firstChunk lead rest := by
  cases hlead : followers lead with
  | none => rw [firstChunk_of_none hlead, firstChunk_of_none hlead]
  | some ranges =>
      have hcount := accepted_append (fun range => continues_of_followers hlead) h rest
      rw [firstChunk_of_some hlead, firstChunk_of_some hlead, hcount,
        List.take_append_of_le_length (accepted_le ranges rest).2]

theorem chunks_append_of_startsCharacter (h : StartsCharacter second) (first : Text) :
    chunks (first ++ second) = chunks first ++ chunks second := by
  fun_induction chunks first with
  | case1 => rfl
  | case2 lead rest chunk ih =>
      obtain ⟨count, hbytes, hcount⟩ := firstChunk_bytes lead rest
      have hlength : chunk.bytes.length - 1 ≤ rest.length := by
        simp [chunk, hbytes]
      rw [List.cons_append, chunks, firstChunk_append h, List.cons_append,
        List.drop_append_of_le_length hlength, ih]

/-! ## Repaired texts -/

theorem repair_append (h : StartsCharacter second) (first : Text) :
    repair (first ++ second) = repair first ++ repair second := by
  rw [repair, chunks_append_of_startsCharacter h, List.flatMap_append, repair, repair]

theorem replacements_append (h : StartsCharacter second) (first : Text) :
    replacements (first ++ second) = replacements first + replacements second := by
  rw [replacements, chunks_append_of_startsCharacter h, List.countP_append, replacements,
    replacements]

theorem chunks_feed (rest : Text) : chunks ('\n' :: rest) = ⟨['\n'], true⟩ :: chunks rest := by
  rw [chunks]
  rfl

theorem repair_append_feed (line rest : Text) :
    repair (line ++ ('\n' : UInt8) :: rest) = repair line ++ ('\n' : UInt8) :: repair rest := by
  rw [repair_append (startsCharacter_feed rest), repair, repair, chunks_feed]
  rfl

theorem replacements_append_feed (line rest : Text) :
    replacements (line ++ ('\n' : UInt8) :: rest) = replacements line + replacements rest := by
  rw [replacements_append (startsCharacter_feed rest), replacements, replacements, chunks_feed]
  rfl

theorem Decomposes.flatMap_bytes {parts : List Chunk} (h : Decomposes text parts) :
    parts.flatMap Chunk.bytes = text := by
  induction h with
  | nil => rfl
  | scalar c later ih => rw [List.flatMap_cons, ih]
  | subpart maximal later ih => rw [List.flatMap_cons, ih]

theorem mem_or_mem_of_mem_repair {b : UInt8} (h : b ∈ repair text) :
    b ∈ text ∨ b ∈ replacement := by
  obtain ⟨chunk, hchunk, hb⟩ := List.mem_flatMap.mp h
  rw [Chunk.repaired] at hb
  split at hb
  · rw [← (decomposes_chunks text).flatMap_bytes]
    exact .inl (List.mem_flatMap.mpr ⟨chunk, hchunk, hb⟩)
  · exact .inr hb

theorem isUnbroken_repair (h : text.IsUnbroken) : Text.IsUnbroken (repair text) := by
  intro hmem
  rcases mem_or_mem_of_mem_repair hmem with htext | hreplacement
  · exact h htext
  · exact absurd hreplacement (by decide)

theorem repair_ne_nil (h : text ≠ []) : repair text ≠ [] := by
  obtain ⟨lead, rest, rfl⟩ := List.exists_cons_of_ne_nil h
  obtain ⟨count, hbytes, -⟩ := firstChunk_bytes lead rest
  rw [repair, chunks, List.flatMap_cons, Chunk.repaired, hbytes]
  split <;> exact List.append_ne_nil_of_left_ne_nil (List.cons_ne_nil _ _) _

/-! ## Line by line -/

theorem lines_repair (text : Text) :
    Text.lines (repair text) = (Text.lines text).map repair := by
  induction text using Text.lineInduction with
  | last line hline =>
      rw [Text.lines_of_isUnbroken hline, Text.lines_of_isUnbroken (isUnbroken_repair hline)]
      rfl
  | more line rest hline ih =>
      rw [repair_append_feed, Text.lines_append_feed (isUnbroken_repair hline),
        Text.lines_append_feed hline, ih, List.map_cons]

theorem replacements_eq_sum (text : Text) :
    replacements text = ((Text.lines text).map replacements).sum := by
  induction text using Text.lineInduction with
  | last line hline => rw [Text.lines_of_isUnbroken hline, List.map_singleton, List.sum_singleton]
  | more line rest hline ih =>
      rw [replacements_append_feed, Text.lines_append_feed hline, List.map_cons,
        List.sum_cons, ← ih]

theorem count_feed_repair (text : Text) :
    (repair text).count ('\n' : UInt8) = text.count ('\n' : UInt8) := by
  induction text using Text.lineInduction with
  | last line hline =>
      rw [List.count_eq_zero.mpr hline, List.count_eq_zero.mpr (isUnbroken_repair hline)]
  | more line rest hline ih =>
      rw [repair_append_feed, List.count_append, List.count_append, List.count_cons,
        List.count_cons, List.count_eq_zero.mpr hline,
        List.count_eq_zero.mpr (isUnbroken_repair hline), ih]

theorem count_feed_dropLast_repair (text : Text) :
    (repair text).dropLast.count ('\n' : UInt8) = text.dropLast.count ('\n' : UInt8) := by
  induction text using Text.lineInduction with
  | last line hline =>
      rw [List.count_eq_zero.mpr fun h => hline (List.dropLast_subset _ h),
        List.count_eq_zero.mpr fun h => isUnbroken_repair hline (List.dropLast_subset _ h)]
  | more line rest hline ih =>
      rw [repair_append_feed, List.dropLast_append_cons, List.dropLast_append_cons,
        List.count_append, List.count_append, List.count_eq_zero.mpr hline,
        List.count_eq_zero.mpr (isUnbroken_repair hline)]
      by_cases hrest : rest = []
      · rw [hrest, show repair [] = [] by rw [repair, chunks]; rfl]
      · rw [List.dropLast_cons_of_ne_nil hrest, List.dropLast_cons_of_ne_nil (repair_ne_nil hrest),
          List.count_cons, List.count_cons, ih]

end Utf8

/-! ## Line numbers -/

theorem bisect_eq_countP {α : Type} {before : α → Bool} {list : List α}
    (h : list.Pairwise fun first second => before second = true → before first = true) :
    bisect before list = list.countP before := by
  have hparts : ∃ first second, list = first ++ second ∧ (∀ a ∈ first, before a = true) ∧
      ∀ a ∈ second, before a = false := by
    induction h with
    | nil => exact ⟨[], [], rfl, List.forall_mem_nil _, List.forall_mem_nil _⟩
    | @cons a rest ha hrest ih =>
        obtain ⟨first, second, rfl, hfirst, hsecond⟩ := ih
        cases hbefore : before a with
        | true =>
            exact ⟨a :: first, second, rfl, List.forall_mem_cons.mpr ⟨hbefore, hfirst⟩, hsecond⟩
        | false =>
            refine ⟨[], _, rfl, List.forall_mem_nil _, List.forall_mem_cons.mpr ⟨hbefore, ?_⟩⟩
            intro later hlater
            rw [← Bool.not_eq_true]
            intro htrue
            rw [ha later hlater htrue] at hbefore
            cases hbefore
  obtain ⟨first, second, rfl, hfirst, hsecond⟩ := hparts
  rw [bisect_append hfirst hsecond, List.countP_append, List.countP_eq_length.mpr hfirst,
    List.countP_eq_zero.mpr (by simpa using hsecond), Nat.add_zero]

namespace Document

theorem lt_of_mem_startsBehindFeeds {start place : Nat} {text : Text}
    (h : place ∈ startsBehindFeeds start text) : start < place := by
  fun_induction startsBehindFeeds start text with
  | case1 => cases h
  | case2 start b rest hfeed ih =>
      rcases List.mem_cons.mp h with rfl | h
      · exact Nat.lt_succ_self start
      · exact Nat.lt_of_succ_lt (ih h)
  | case3 start b rest hfeed ih => exact Nat.lt_of_succ_lt (ih h)

theorem pairwise_startsBehindFeeds (start : Nat) (text : Text) :
    (startsBehindFeeds start text).Pairwise (· < ·) := by
  fun_induction startsBehindFeeds start text with
  | case1 => exact .nil
  | case2 start b rest hfeed ih => exact .cons (fun _ => lt_of_mem_startsBehindFeeds) ih
  | case3 start b rest hfeed ih => exact ih

theorem countP_startsBehindFeeds (start place : Nat) (text : Text) :
    (startsBehindFeeds start text).countP (· ≤ place) =
      (text.take (min (place - start) (text.length - 1))).count ('\n' : UInt8) := by
  induction text generalizing start with
  | nil => simp [startsBehindFeeds]
  | cons b rest ih =>
      rcases Nat.lt_or_ge start place with hplace | hplace
      · cases rest with
        | nil => simp [startsBehindFeeds]
        | cons next rest =>
            have hmin : min (place - start) ((b :: next :: rest).length - 1) =
                min (place - (start + 1)) ((next :: rest).length - 1) + 1 := by simp; omega
            rw [hmin, List.take_succ_cons, List.count_cons, ← ih, startsBehindFeeds]
            by_cases hb : b = ('\n' : UInt8)
            · simp [hb, Nat.succ_le_of_lt hplace]
            · simp [hb]
      · rw [Nat.sub_eq_zero_of_le hplace, Nat.zero_min, List.take_zero, List.count_nil,
          List.countP_eq_zero]
        intro later hlater
        have hlt := lt_of_mem_startsBehindFeeds hlater
        simpa using Nat.lt_of_le_of_lt hplace hlt

theorem pairwise_lineStarts (document : Document) : document.lineStarts.Pairwise (· < ·) :=
  .cons (fun _ => lt_of_mem_startsBehindFeeds) (pairwise_startsBehindFeeds _ _)

theorem countP_lineStarts (document : Document) (place : Nat) :
    document.lineStarts.countP (· ≤ place) =
      (document.text.take (min place (document.size - 1))).count ('\n' : UInt8) + 1 := by
  rw [lineStarts, List.countP_cons_of_pos (by simp), countP_startsBehindFeeds, Nat.sub_zero,
    Document.size]

theorem bisect_lineStarts (document : Document) (place : Nat) :
    bisect (· ≤ place) document.lineStarts = document.lineStarts.countP (· ≤ place) := by
  apply bisect_eq_countP
  refine document.pairwise_lineStarts.imp fun hlt hle => ?_
  simp only [decide_eq_true_eq] at hle ⊢
  omega

theorem line_locate (document : Document) (offset : Nat) :
    (document.locate offset).line =
      ((document.text.take (min offset (document.size - 1))).count ('\n' : UInt8) +
        1).toUInt32 := by
  have hmin : min (min offset document.size) (document.size - 1) =
      min offset (document.size - 1) := by
    omega
  rw [locate]
  dsimp only
  rw [bisect_lineStarts, countP_lineStarts, hmin]

theorem line_locate_append {before after : Text} (h : after ≠ []) (path : Text) (file : UInt32) :
    (locate ⟨before ++ after, path, file⟩ before.length).line =
      (before.count ('\n' : UInt8) + 1).toUInt32 := by
  have hlength := List.length_pos_iff.mpr h
  rw [line_locate, size, List.length_append, Nat.min_eq_left (by omega), List.take_left]

theorem line_locate_end (text path : Text) (file : UInt32) :
    (locate ⟨text, path, file⟩ text.length).line =
      (text.dropLast.count ('\n' : UInt8) + 1).toUInt32 := by
  rw [line_locate, size, Nat.min_eq_right (Nat.sub_le _ _), List.dropLast_eq_take]

theorem line_locate_repair {before after : Text} (h : Utf8.StartsCharacter after) (path : Text)
    (file : UInt32) :
    (locate ⟨Utf8.repair (before ++ after), path, file⟩ (Utf8.repair before).length).line =
      (locate ⟨before ++ after, path, file⟩ before.length).line := by
  by_cases hafter : after = []
  · rw [hafter, List.append_nil, line_locate_end, line_locate_end,
      Utf8.count_feed_dropLast_repair]
  · rw [Utf8.repair_append h, line_locate_append hafter,
      line_locate_append (Utf8.repair_ne_nil hafter), Utf8.count_feed_repair]

end Document

/--
The repair of a text is that of its pieces, where each piece but the first starts a character.
It keeps the line feeds, repairs every line by itself, and leaves each piece on its line.
-/
theorem Utf8.repair_pieces (first second : Text) (h : StartsCharacter second) :
    repair (first ++ second) = repair first ++ repair second ∧
      replacements (first ++ second) = replacements first + replacements second ∧
      (∀ text, (repair text).count ('\n' : UInt8) = text.count ('\n' : UInt8) ∧
        Text.lines (repair text) = (Text.lines text).map repair ∧
        replacements text = ((Text.lines text).map replacements).sum) ∧
      ∀ path file,
        (Document.locate ⟨repair (first ++ second), path, file⟩ (repair first).length).line =
          (Document.locate ⟨first ++ second, path, file⟩ first.length).line :=
  ⟨repair_append h first, replacements_append h first,
    fun text => ⟨count_feed_repair text, lines_repair text, replacements_eq_sum text⟩,
    Document.line_locate_repair h⟩

/-- A form of four bytes is cut short by a lead byte that begins another one. -/
theorem Utf8.repair_pieces_truncated :
    StartsCharacter [0xC3, 0xA9, 0x0A] ∧
      repair ([0x0A, 0xF0, 0x9F, 0x98] ++ [0xC3, 0xA9, 0x0A]) =
        [0x0A, 0xEF, 0xBF, 0xBD, 0xC3, 0xA9, 0x0A] ∧
      replacements ([0x0A, 0xF0, 0x9F, 0x98] ++ [0xC3, 0xA9, 0x0A]) = 1 := by
  have h : StartsCharacter [0xC3, 0xA9, 0x0A] := by decide +kernel
  obtain ⟨hrepair, hcount, -, -⟩ := repair_pieces [0x0A, 0xF0, 0x9F, 0x98] _ h
  exact ⟨h, hrepair.trans (by decide +kernel), hcount.trans (by decide +kernel)⟩

end LatexIntegrity
