import LatexIntegrity.Proofs.Sanitize.Known
import LatexIntegrity.Proofs.Sanitize.Lines
import LatexIntegrity.Proofs.Text.LineEdits

/-!
# Normalized texts

A text whose typographic characters are replaced holds no such character, also where its bytes
are no characters.  Each line is replaced on its own: no key reaches across a line feed, and
what stands in one line tells the pass nothing about the next one.
-/

namespace LatexIntegrity

open EscapePass (State separator)

variable {table : EscapeTable}

/-! ## One line after the other -/

theorem EscapeTable.StaysOnLine.match?_append_feed (htable : table.StaysOnLine)
    (line rest : Text) : table.match? (line ++ ('\n' : UInt8) :: rest) = table.match? line := by
  have hkeys : ∀ entry ∈ table.entries,
      entry.key.isPrefixOf (line ++ ('\n' : UInt8) :: rest) = entry.key.isPrefixOf line := by
    intro entry hentry
    have hkey := (htable entry hentry).2.1
    have hends : Text.EndsLine (line ++ [('\n' : UInt8)]) := by simp [Text.EndsLine]
    have hwhole : entry.key ≠ line ++ [('\n' : UInt8)] := by
      intro heq
      exact hkey (heq ▸ List.mem_append_right _ List.mem_cons_self)
    rw [Bool.eq_iff_iff, List.isPrefixOf_iff_prefix, List.isPrefixOf_iff_prefix,
      List.append_cons, hends.prefix_append_iff (by simp) hkey, List.prefix_concat_iff,
      or_iff_right hwhole]
  cases line with
  | nil =>
      refine match?_eq_none_iff.mpr (.inr fun entry hentry hstarts => ?_)
      have hnil := (hkeys entry hentry).symm.trans (List.isPrefixOf_iff_prefix.mpr hstarts)
      exact (htable entry hentry).1 (List.prefix_nil.mp (List.isPrefixOf_iff_prefix.mp hnil))
  | cons b line => exact List.find?_congr hkeys

namespace EscapePass

variable {next : Option UInt8} {state state' : State} {entry : EscapeRule} {b : UInt8}
  {line rest : Text}

theorem run_of_match?_eq_none (h : table.match? (b :: rest) = none) :
    run table false next state (b :: rest) =
      state.gap (some b) ++ b :: run table false next (state.copy b) rest := by
  rw [run, h]

theorem run_of_match?_eq_some (h : table.match? (b :: rest) = some entry) :
    run table false next state (b :: rest) =
      state.written entry.replacement ++
        run table false next (state.replace entry) (rest.drop (entry.key.length - 1)) := by
  rw [run, h]
  rfl

theorem State.gap_congr (h : state'.inserted = state.inserted) (next : Option UInt8) :
    state'.gap next = state.gap next := by
  rw [gap, gap, h]

theorem run_congr (hinserted : state'.inserted = state.inserted)
    (hlast : (state'.last == some ('$' : UInt8)) = (state.last == some ('$' : UInt8)))
    (text : Text) : run table false next state' text = run table false next state text := by
  fun_induction run table false next state text generalizing state' with
  | case1 state => rw [run, State.gap_congr hinserted]
  | case2 state b rest entry hmatch hescaped ih => cases hescaped
  | case3 state b rest entry hmatch hescaped ih =>
      have hlast' : ((state'.replace entry).last == some ('$' : UInt8)) =
          ((state.replace entry).last == some ('$' : UInt8)) := by
        simp only [State.replace]
        split
        · exact hlast
        · rfl
      have hrest : run table false next (state'.replace entry) _ = _ :=
        ih (by simp [State.replace, hinserted]) hlast'
      rw [run_of_match?_eq_some hmatch, hrest, State.written, State.written, hlast]
  | case4 state b rest hmatch ih =>
      have hrest : run table false next (state'.copy b) rest = _ := ih rfl rfl
      rw [run_of_match?_eq_none hmatch, State.gap_congr hinserted, hrest]

theorem run_line_append (htable : table.StaysOnLine) (next : Option UInt8) (state : State)
    (line rest : Text) :
    run table false next state (line ++ ('\n' : UInt8) :: rest) =
      run table false none state line ++
        ('\n' : UInt8) :: run table false next (.start []) rest := by
  fun_induction run table false none state line with
  | case1 state =>
      have hnone := htable.match?_append_feed [] rest
      rw [List.nil_append] at hnone ⊢
      have hstart : run table false next (state.copy '\n') rest =
        run table false next (.start []) rest := run_congr (by rfl) (by rfl) rest
      have hfeed : (some ('\n' : UInt8) == some ('$' : UInt8)) = false := by decide
      have hgap : state.gap none = state.gap (some ('\n' : UInt8)) := by
        rw [State.gap, State.gap, hfeed]
        rfl
      rw [run_of_match?_eq_none hnone, hstart, hgap]
  | case2 state b line entry hmatch hescaped ih => cases hescaped
  | case3 state b line entry hmatch hescaped ih =>
      have hwithin : entry.key.length - 1 ≤ line.length := by
        have hlength := (EscapeTable.match?_eq_some hmatch).2.length_le
        rw [List.length_cons] at hlength
        omega
      have hmatch' := (htable.match?_append_feed (b :: line) rest).trans hmatch
      rw [List.cons_append] at hmatch' ⊢
      rw [run_of_match?_eq_some hmatch', List.drop_append_of_le_length hwithin, ih,
        List.append_assoc]
  | case4 state b line hmatch ih =>
      have hmatch' := (htable.match?_append_feed (b :: line) rest).trans hmatch
      rw [List.cons_append] at hmatch' ⊢
      rw [run_of_match?_eq_none hmatch', ih, List.append_assoc, List.cons_append]

end EscapePass

/-! ## Bytes that no entry holds -/

theorem filter_normalizeTypography {p : UInt8 → Bool} (hseparator : separator.filter p = [])
    (htable : ∀ entry ∈ table.entries,
      entry.key ≠ [] ∧ entry.key.filter p = [] ∧ entry.replacement.filter p = []) (text : Text) :
    (normalizeTypography table text).filter p = text.filter p := by
  have hrespects : table.Respects fun source target => target.filter p = source.filter p := by
    refine ⟨fun _ => rfl, fun h h' => ?_, fun state source target h => ?_, fun entry hentry =>
      (htable entry hentry).1, fun entry hentry state => ?_⟩
    · rw [List.filter_append, List.filter_append, h, h']
    · rw [List.filter_append, State.gap]
      split
      · rw [hseparator, List.nil_append, h]
      · exact h
    · obtain ⟨-, hkey, hreplacement⟩ := htable entry hentry
      rw [State.written, List.filter_append, hreplacement, hkey, List.append_nil]
      split
      · exact hseparator
      · rfl
  exact relates_normalizeTypography hrespects text

theorem isUnbroken_iff_filter {text : Text} :
    text.IsUnbroken ↔ text.filter (· == ('\n' : UInt8)) = [] := by
  simp only [Text.isUnbroken_iff, List.filter_eq_nil_iff, Bool.not_eq_true]

theorem isUnbroken_normalizeTypography (htable : table.StaysOnLine) {line : Text}
    (hline : line.IsUnbroken) : (normalizeTypography table line).IsUnbroken := by
  rw [isUnbroken_iff_filter] at hline ⊢
  rw [filter_normalizeTypography (by decide) (fun entry hentry => ?_), hline]
  obtain ⟨hne, hkey, hreplacement⟩ := htable entry hentry
  exact ⟨hne, isUnbroken_iff_filter.mp hkey, isUnbroken_iff_filter.mp hreplacement⟩

theorem lines_normalizeTypography (htable : table.StaysOnLine) (text : Text) :
    Text.lines (normalizeTypography table text) =
      (Text.lines text).map (normalizeTypography table) := by
  induction text using Text.induction_lines (· == ('\n' : UInt8)) with
  | last line hline =>
      have hunbroken := Text.isUnbroken_iff.mpr hline
      rw [Text.lines_of_isUnbroken hunbroken, List.map_singleton,
        Text.lines_of_isUnbroken (isUnbroken_normalizeTypography htable hunbroken)]
  | line line feed rest hline hfeed ih =>
      have hnormalized := Text.isUnbroken_iff.mp
        (isUnbroken_normalizeTypography htable (Text.isUnbroken_iff.mpr hline))
      obtain rfl := beq_iff_eq.mp hfeed
      rw [normalizeTypography_eq_run, EscapePass.run_line_append htable,
        ← normalizeTypography_eq_run, ← normalizeTypography_eq_run]
      rw [Text.lines_eq_splitOnP, Text.lines_eq_splitOnP] at ih ⊢
      rw [Text.splitOnP_line_append hline hfeed, Text.splitOnP_line_append hnormalized hfeed,
        List.map_cons, ih]

/-! ## The standard table -/

def isNewline (b : UInt8) : Bool := b == '\n' || b == '\r'

/--
In no text is a typographic character left, whatever its bytes, so that a second normalization
changes nothing.  Each line is normalized on its own, and the line feeds and carriage returns
stay as they are.
-/
theorem normalizeTypography_complete (text : Text) :
    let table := EscapeTables.standard.typography
    let normalized := normalizeTypography table text
    (∀ entry ∈ table.entries, ∀ offset, ¬entry.key <+: normalized.drop offset) ∧
      normalizeTypography table normalized = normalized ∧
      normalized.filter isNewline = text.filter isNewline ∧
      Text.lines normalized = (Text.lines text).map (normalizeTypography table) := by
  have hspares := spares_normalizeTypography EscapeTables.standard_areKnown.typography text
  have hnewline : ∀ entry ∈ EscapeTables.standard.typography.entries, entry.key ≠ [] ∧
      entry.key.filter isNewline = [] ∧ entry.replacement.filter isNewline = [] := by decide
  have hlines := (EscapeTables.standard_writesLine _ List.mem_cons_self).1
  refine ⟨fun entry hentry offset hstarts => ?_, normalizeTypography_of_spares hspares,
    filter_normalizeTypography (by decide) hnewline text, lines_normalizeTypography hlines text⟩
  exact hspares entry hentry (hstarts.isInfix.trans (List.drop_suffix _ _).isInfix)

end LatexIntegrity
