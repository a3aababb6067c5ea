import Mathlib.Data.List.Induction
import Mathlib.Data.List.Intervals
import LatexIntegrity.Balance
import LatexIntegrity.Proofs.Markup.Delimiter
import LatexIntegrity.Proofs.Region.Splitting
import LatexIntegrity.Proofs.Span.Tiling

/-!
# The delimiters that count

The scan of a span jumps over whole delimiters and over escaped bytes.  It misses
nothing: it reads the delimiters that a test of every single offset finds.
-/

namespace LatexIntegrity

theorem delimiterAt?_eq_some_iff {text : Text} {offset : Nat} {delimiter : Delimiter} :
    delimiterAt? text offset = some delimiter ↔
      delimiter.position = offset ∧ isEscapedAt text offset = false ∧
        DelimiterToken.read? (text.drop offset) = some delimiter.toDelimiterToken := by
  unfold delimiterAt? Delimiter.read? isEscapedAt
  obtain ⟨token, position⟩ := delimiter
  cases (LeftContext.after (text.take offset)).escaped <;>
    simp [and_comm, eq_comm (a := position)]

section

variable {text : Text} {offset : Nat} {delimiter : Delimiter}

theorem isName_of_delimiterAt? (h : delimiterAt? text offset = some delimiter) :
    Environment.IsName delimiter.name := by
  obtain ⟨-, -, hread⟩ := delimiterAt?_eq_some_iff.mp h
  exact (DelimiterToken.read?_eq_some_iff.mp hread).1

theorem drop_of_delimiterAt? (h : delimiterAt? text offset = some delimiter) :
    text.drop offset = delimiter.source ++ text.drop delimiter.stop := by
  obtain ⟨rfl, -, hread⟩ := delimiterAt?_eq_some_iff.mp h
  obtain ⟨-, behind, hbehind⟩ := DelimiterToken.read?_eq_some_iff.mp hread
  rw [Delimiter.stop, ← List.drop_drop, ← hbehind, List.drop_left]

theorem pushAll_of_delimiterAt? (h : delimiterAt? text offset = some delimiter) :
    (LeftContext.after (text.take offset)).pushAll delimiter.source =
      .after (text.take delimiter.stop) := by
  have hdrop := drop_of_delimiterAt? h
  obtain ⟨rfl, -, -⟩ := delimiterAt?_eq_some_iff.mp h
  rw [Delimiter.stop, ← LeftContext.after_take_add, hdrop, List.take_left]

theorem isEscapedAt_stop (h : delimiterAt? text offset = some delimiter) :
    isEscapedAt text delimiter.stop = false := by
  rw [isEscapedAt, ← pushAll_of_delimiterAt? h, Environment.pushAll_source]

theorem delimiterAt?_eq_none_of_ne (h : (text.drop offset).head? ≠ some ('\\' : UInt8)) :
    delimiterAt? text offset = none := by
  apply Option.eq_none_iff_forall_not_mem.mpr
  intro delimiter hdelimiter
  apply h
  rw [drop_of_delimiterAt? hdelimiter]
  simp [DelimiterToken.source_eq]

theorem delimiterAt?_eq_none_of_escaped (h : isEscapedAt text offset = true) :
    delimiterAt? text offset = none := by
  unfold isEscapedAt at h
  simp [delimiterAt?, Delimiter.read?, h]

theorem isEscapedAt_add (text : Text) (offset length : Nat) :
    isEscapedAt text (offset + length) =
      ((LeftContext.after (text.take offset)).pushAll
        ((text.drop offset).take length)).escaped := by
  rw [isEscapedAt, LeftContext.after_take_add]

theorem delimiterAt?_inside {start : Nat} (h : delimiterAt? text start = some delimiter)
    (hstart : start < offset) (hstop : offset < delimiter.stop) :
    delimiterAt? text offset = none := by
  have hdrop := drop_of_delimiterAt? h
  have hname := isName_of_delimiterAt? h
  obtain ⟨rfl, -, -⟩ := delimiterAt?_eq_some_iff.mp h
  obtain ⟨distance, rfl⟩ := Nat.exists_eq_add_of_lt hstart
  have hlt : distance + 1 < delimiter.source.length := by
    unfold Delimiter.stop at hstop
    omega
  apply delimiterAt?_eq_none_of_ne
  rw [Nat.add_assoc, ← List.drop_drop, hdrop, List.drop_append_of_le_length (by omega),
    List.head?_append_of_ne_nil _ (by simp; omega)]
  intro hhead
  have hmem : ('\\' : UInt8) ∈ delimiter.source.tail.drop distance := by
    simpa using List.mem_of_head? hhead
  exact DelimiterToken.not_mem_tail_source hname (b := '\\') (by decide)
    (List.mem_of_mem_drop hmem)

end

/-- A byte is escaped if an odd number of backslashes comes directly before it. -/
theorem isEscapedAt_eq_parity (text : Text) (offset : Nat) :
    isEscapedAt text offset =
      (((text.take offset).reverse.takeWhile (· == ('\\' : UInt8))).length % 2 == 1) := by
  unfold isEscapedAt LeftContext.after
  induction text.take offset using List.reverseRecOn with
  | nil => rfl
  | append_singleton before b ih =>
      rw [LeftContext.pushAll_append, List.reverse_concat]
      by_cases hb : b = ('\\' : UInt8)
      · rw [Bool.eq_iff_iff] at ih ⊢
        simp only [hb, LeftContext.pushAll_cons, LeftContext.pushAll_nil, LeftContext.push_escaped,
          List.takeWhile_cons_of_pos, List.length_cons, beq_self_eq_true, Bool.true_and,
          Bool.not_eq_true', beq_iff_eq] at ih ⊢
        rw [← Bool.not_eq_true, ih]
        omega
      · simp [hb, List.takeWhile_cons_of_neg]

namespace Balance

/-! ## One step of the scan -/

section

variable {stop position : Nat} {context : LeftContext} {text : Text}

theorem delimitersFrom_of_le (h : stop ≤ position) :
    delimitersFrom stop context position text = [] := by
  cases text <;> simp [delimitersFrom, h]

theorem delimitersFrom_of_ne (h : text.head? ≠ some ('\\' : UInt8)) (hlt : position < stop) :
    delimitersFrom stop context position text =
      delimitersFrom stop (context.pushAll (text.take 1)) (position + 1) (text.drop 1) := by
  cases text with
  | nil => simp [delimitersFrom]
  | cons b rest =>
      rw [delimitersFrom, if_neg (by omega), if_neg (by simpa using h)]
      simp

theorem delimitersFrom_of_escape (h : text.head? = some ('\\' : UInt8))
    (hread : Delimiter.read? context position text = none) (hlt : position < stop) :
    delimitersFrom stop context position text =
      delimitersFrom stop (context.pushAll (text.take 2)) (position + 2) (text.drop 2) := by
  cases text with
  | nil => cases h
  | cons b rest =>
      rw [delimitersFrom, if_neg (by omega), if_pos (by simpa using h), hread]
      simp

theorem delimitersFrom_of_delimiter {delimiter : Delimiter}
    (hread : Delimiter.read? context position text = some delimiter) (hlt : position < stop) :
    delimitersFrom stop context position text =
      delimiter :: delimitersFrom stop (context.pushAll (text.take delimiter.source.length))
        (position + delimiter.source.length) (text.drop delimiter.source.length) := by
  obtain ⟨token, htoken, rfl⟩ : ∃ token, DelimiterToken.read? text = some token ∧
      ⟨token, position⟩ = delimiter := by
    unfold Delimiter.read? at hread
    split at hread
    · cases hread
    · exact Option.map_eq_some_iff.mp hread
  obtain ⟨-, behind, rfl⟩ := DelimiterToken.read?_eq_some_iff.mp htoken
  obtain ⟨rest, hsource⟩ : ∃ rest, token.source = ('\\' : UInt8) :: rest := by
    simp [DelimiterToken.source_eq]
  rw [hsource, List.cons_append] at hread
  rw [hsource, List.cons_append, delimitersFrom, if_neg (by omega), if_pos (by decide), hread]
  simp [hsource]

end

theorem filterMap_Ico_skip {α : Type} {read : Nat → Option α} {start next stop : Nat}
    (hle : start ≤ next) (h : ∀ offset, start ≤ offset → offset < next → read offset = none) :
    (List.Ico start stop).filterMap read = (List.Ico next stop).filterMap read := by
  by_cases hstop : next ≤ stop
  · rw [← List.Ico.append_consecutive hle hstop, List.filterMap_append,
      List.filterMap_eq_nil_iff.mpr, List.nil_append]
    intro offset hoffset
    rw [List.Ico.mem] at hoffset
    exact h offset hoffset.1 hoffset.2
  · rw [List.Ico.eq_nil_of_le (by omega : stop ≤ next), List.filterMap_nil,
      List.filterMap_eq_nil_iff]
    intro offset hoffset
    rw [List.Ico.mem] at hoffset
    exact h offset hoffset.1 (by omega)

theorem isEscapedAt_behind_backslash {text : Text} {position : Nat}
    (hescaped : isEscapedAt text position = false)
    (hhead : (text.drop position).head? = some ('\\' : UInt8)) :
    isEscapedAt text (position + 1) = true ∧
      (isEscapedAt text (position + 2) = false ∨
        (text.drop (position + 2)).head? ≠ some ('\\' : UInt8)) := by
  obtain ⟨rest, hrest⟩ := List.head?_eq_some_iff.mp hhead
  unfold isEscapedAt at hescaped
  rw [isEscapedAt_add, isEscapedAt_add, ← List.drop_drop, hrest]
  cases rest with
  | nil => simp [hescaped]
  | cons b rest => simp [hescaped]

theorem delimitersFrom_eq (text : Text) (stop : Nat) {position : Nat}
    (h : isEscapedAt text position = false ∨
      (text.drop position).head? ≠ some ('\\' : UInt8)) :
    delimitersFrom stop (.after (text.take position)) position (text.drop position) =
      (List.Ico position stop).filterMap (delimiterAt? text) := by
  induction hn : stop - position using Nat.strongRecOn generalizing position with
  | ind n ih =>
      subst hn
      by_cases hlt : position < stop
      · -- Each step of the scan passes over bytes at which no delimiter begins.
        have hjump : ∀ length, 0 < length →
            (isEscapedAt text (position + length) = false ∨
              (text.drop (position + length)).head? ≠ some ('\\' : UInt8)) →
            delimitersFrom stop
                ((LeftContext.after (text.take position)).pushAll
                  ((text.drop position).take length))
                (position + length) ((text.drop position).drop length) =
              (List.Ico (position + length) stop).filterMap (delimiterAt? text) := by
          intro length hpos hescaped
          rw [← ih (stop - (position + length)) (by omega) hescaped rfl, List.drop_drop,
            LeftContext.after_take_add]
        by_cases hhead : (text.drop position).head? = some ('\\' : UInt8)
        · have hescaped : isEscapedAt text position = false := by simpa [hhead] using h
          cases hread : delimiterAt? text position with
          | some delimiter =>
              have hstop := isEscapedAt_stop hread
              obtain ⟨rfl, -, -⟩ := delimiterAt?_eq_some_iff.mp hread
              have hpos : 0 < delimiter.source.length :=
                List.length_pos_iff.mpr delimiter.source_ne_nil
              rw [delimitersFrom_of_delimiter hread hlt, hjump _ hpos (.inl hstop),
                List.Ico.eq_cons hlt, List.filterMap_cons_some hread,
                filterMap_Ico_skip (Nat.add_le_add_left hpos _)]
              intro offset hle hoffset
              exact delimiterAt?_inside hread (by omega) hoffset
          | none =>
              obtain ⟨hnext, hbehind⟩ := isEscapedAt_behind_backslash hescaped hhead
              rw [delimitersFrom_of_escape hhead hread hlt, hjump 2 (by omega) hbehind]
              apply (filterMap_Ico_skip (by omega) _).symm
              intro offset hle hoffset
              rcases Nat.eq_or_lt_of_le hle with rfl | hlater
              · exact hread
              · obtain rfl : offset = position + 1 := by omega
                exact delimiterAt?_eq_none_of_escaped hnext
        · rw [delimitersFrom_of_ne hhead hlt, hjump 1 (by omega)]
          · apply (filterMap_Ico_skip (by omega) _).symm
            intro offset hle hoffset
            obtain rfl : offset = position := by omega
            exact delimiterAt?_eq_none_of_ne hhead
          · rw [isEscapedAt_add, ← List.drop_drop]
            cases hrest : text.drop position with
            | nil => simp
            | cons b rest =>
                have hb : b ≠ ('\\' : UInt8) := by simpa [hrest] using hhead
                simp [hb]
      · simp [delimitersFrom_of_le (Nat.not_lt.mp hlt), List.Ico.eq_nil_of_le (Nat.not_lt.mp hlt)]

/-! ## All spans of a text -/

variable {text : Text}

/-- Whether the span that holds an offset is one whose delimiters count. -/
def isCountedAt (text : Text) (offset : Nat) : Bool :=
  (Span.findAt? (segment text) offset).any isCounted

theorem isCountedAt_eq {span : Span} {offset : Nat} (hspan : span ∈ segment text)
    (hoffset : span.contains offset = true) : isCountedAt text offset = isCounted span := by
  unfold isCountedAt
  rw [(tiles_segment text).findAt?_eq_some_iff.mpr ⟨hspan, hoffset⟩]
  rfl

theorem escaped_at_span {span : Span} (h : span ∈ segment text) :
    isEscapedAt text span.start = false ∨
      (text.drop span.start).head? ≠ some ('\\' : UInt8) := by
  obtain ⟨before, after, hregions, hstart⟩ :=
    Region.exists_append_of_mem_spans ⟨span, h, .inl rfl⟩
  have hbodies := flatMap_body_regions text
  rw [hregions, List.flatMap_append] at hbodies
  unfold regions at hregions
  rw [← hbodies] at hregions ⊢
  rw [hstart, Nat.zero_add, isEscapedAt, List.take_left, List.drop_left]
  refine (escaped_at_boundary hregions rfl (.inl rfl)).imp_right ?_
  intro hline hhead
  exact absurd (hline _ hhead) (by decide)

theorem delimitersIn_eq {span : Span} (h : span ∈ segment text) :
    delimitersIn text span =
      (List.Ico span.start span.stop).filterMap (delimiterAt? text) :=
  delimitersFrom_eq text span.stop (escaped_at_span h)

theorem delimiters_segment (text : Text) :
    delimiters text (segment text) =
      ((List.range text.length).filter (isCountedAt text)).filterMap (delimiterAt? text) := by
  unfold delimiters
  rw [← List.Ico.zero_bot, ← (tiles_segment text).flatMap_Ico fun span hspan offset =>
    isCountedAt_eq hspan, List.filterMap_flatMap]
  apply List.flatMap_congr
  intro span hspan
  exact delimitersIn_eq (List.mem_of_mem_filter hspan)

theorem mem_delimiters_segment {delimiter : Delimiter} :
    delimiter ∈ delimiters text (segment text) ↔
      delimiterAt? text delimiter.position = some delimiter ∧
        isCountedAt text delimiter.position = true := by
  simp only [delimiters_segment, List.mem_filterMap, List.mem_filter, List.mem_range]
  constructor
  · rintro ⟨offset, ⟨-, hcounted⟩, hread⟩
    obtain ⟨rfl, -, -⟩ := delimiterAt?_eq_some_iff.mp hread
    exact ⟨hread, hcounted⟩
  · rintro ⟨hread, hcounted⟩
    refine ⟨delimiter.position, ⟨?_, hcounted⟩, hread⟩
    by_contra hout
    rw [delimiterAt?_eq_none_of_ne] at hread
    · cases hread
    · simp [List.drop_eq_nil_of_le (Nat.not_lt.mp hout)]

theorem pairwise_delimiters_segment (text : Text) :
    (delimiters text (segment text)).Pairwise fun first second =>
      first.position < second.position := by
  rw [delimiters_segment]
  apply List.Pairwise.filterMap _ _ (List.pairwise_lt_range.filter _)
  intro offset other hlt first hfirst second hsecond
  obtain ⟨rfl, -, -⟩ := delimiterAt?_eq_some_iff.mp hfirst
  obtain ⟨rfl, -, -⟩ := delimiterAt?_eq_some_iff.mp hsecond
  exact hlt

end Balance

end LatexIntegrity
