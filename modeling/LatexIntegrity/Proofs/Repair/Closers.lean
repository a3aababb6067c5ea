import LatexIntegrity.Proofs.Edit.Delimiters
import LatexIntegrity.Repair.Closers

/-!
# Balancing environments

The pass over the environments of a text takes closers out and appends others, as many
as the tally of the text asks for unless a surplus one is shielded.  The delimiters of
the text that it leaves are accordingly those of the text without the former and with
the latter.
-/

namespace LatexIntegrity.Repair

namespace CloserPass

/-- The names of the closers that a tally misses, as often as it misses them. -/
def missingNames (tally : Balance.Tally) : List Text :=
  tally.flatMap fun entry => List.replicate (entry.2.opened - entry.2.closed) entry.1

def surplusNames (tally : Balance.Tally) : List Text :=
  tally.flatMap fun entry => List.replicate (entry.2.closed - entry.2.opened) entry.1

def appendixFor (names : List Text) : Text :=
  names.flatMap fun name => Text.ofString "\n" ++ Environment.closer name

def appendixEdits (text : Text) (names : List Text) : List Edit :=
  if names.isEmpty then []
  else
    [⟨contentEnd text (segment text), text.length - contentEnd text (segment text),
      appendixFor names ++ Text.ofString "\n"⟩]

def plainClosers (text name : Text) : List Delimiter :=
  (Balance.delimiters text (segment text)).filter fun delimiter =>
    delimiter.toDelimiterToken == ⟨.closing, name⟩ && isPlainAt text delimiter.position

def removalsFor (text : Text) (entry : Text × Balance.Count) : List Delimiter :=
  (plainClosers text entry.1).reverse.take (entry.2.closed - entry.2.opened)

def fixesFor (text : Text) (entry : Text × Balance.Count) : List Fix :=
  List.replicate (entry.2.opened - entry.2.closed) (added entry.1) ++
    (List.replicate (removalsFor text entry).length (removed entry.1) ++
      List.replicate (entry.2.closed - entry.2.opened - (removalsFor text entry).length)
        (kept entry.1))

/-! ## One name -/

variable {text name : Text} {earlier tried : List Delimiter} {delimiter : Delimiter}

theorem removeFirst_eq {length : Nat} (surplus : Nat)
    (hread : ∀ delimiter ∈ earlier ++ tried,
      delimiterAt? text delimiter.position = some delimiter)
    (hnodup : (earlier ++ tried).Nodup)
    (hlength : ∀ delimiter ∈ tried, delimiter.source.length = length) :
    removeFirst length surplus (Draft.without text earlier) tried =
      (Draft.without text
          (earlier ++ (tried.filter fun delimiter =>
            isPlainAt text delimiter.position).take surplus),
        surplus - (tried.filter fun delimiter => isPlainAt text delimiter.position).length) := by
  induction tried generalizing surplus earlier with
  | nil => simp [removeFirst]
  | cons delimiter rest ih =>
      cases surplus with
      | zero => simp [removeFirst]
      | succ surplus =>
          obtain ⟨rfl, hlength⟩ := List.forall_mem_cons.mp hlength
          obtain ⟨hearlier, hrest⟩ := List.forall_mem_append.mp hread
          obtain ⟨hdelimiter, hrest⟩ := List.forall_mem_cons.mp hrest
          have hmiddle := List.nodup_middle.mp hnodup
          obtain ⟨hnew, hothers⟩ := List.nodup_cons.mp hmiddle
          rw [removeFirst, Draft.replace?_removal hearlier hdelimiter fun hmem =>
            hnew (List.mem_append_left _ hmem)]
          cases hplain : isPlainAt text delimiter.position with
          | true =>
              have hnext := @ih (earlier ++ [delimiter]) surplus (by simpa using hread)
                (by simpa using hnodup) hlength
              simp [hnext, hplain]
          | false =>
              have hnext := ih (surplus + 1)
                (List.forall_mem_append.mpr ⟨hearlier, hrest⟩) hothers hlength
              simp [hnext, hplain]

theorem mem_plainClosers :
    delimiter ∈ plainClosers text name ↔
      (delimiterAt? text delimiter.position = some delimiter ∧
        Balance.isCountedAt text delimiter.position = true) ∧
          delimiter.toDelimiterToken = ⟨.closing, name⟩ ∧
            isPlainAt text delimiter.position = true := by
  simp [plainClosers, Balance.mem_delimiters_segment]

theorem mem_removalsFor {entry : Text × Balance.Count} (h : delimiter ∈ removalsFor text entry) :
    delimiter ∈ plainClosers text entry.1 :=
  List.mem_reverse.mp (List.mem_of_mem_take h)

theorem nodup_delimiters (text : Text) : (Balance.delimiters text (segment text)).Nodup := by
  apply (Balance.pairwise_delimiters_segment text).imp
  rintro first second hlt rfl
  exact Nat.lt_irrefl _ hlt

theorem nodup_removalsFor (text : Text) (entry : Text × Balance.Count) :
    (removalsFor text entry).Nodup :=
  ((List.nodup_reverse.mpr ((nodup_delimiters text).filter _)).sublist (List.take_sublist _ _))

theorem balance_eq (hread : ∀ other ∈ earlier, delimiterAt? text other.position = some other)
    (hnodup : earlier.Nodup) (hname : ∀ other ∈ earlier, other.name ≠ name)
    (count : Balance.Count) (appendix : Text) (fixes : List Fix) :
    balance (Balance.delimiters text (segment text))
        ⟨Draft.without text earlier, appendix, fixes⟩ (name, count) =
      ⟨Draft.without text (earlier ++ removalsFor text (name, count)),
        appendix ++ appendixFor (List.replicate (count.opened - count.closed) name),
        fixes ++ fixesFor text (name, count)⟩ := by
  by_cases hlt : count.closed < count.opened
  · have hnone : count.closed - count.opened = 0 := by omega
    simp [balance, hlt, append, appendixFor, fixesFor, removalsFor, hnone, List.flatMap_replicate]
  · have hnone : count.opened - count.closed = 0 := by omega
    have hclosers : ((Balance.delimiters text (segment text)).filter fun delimiter =>
        delimiter.side == .closing && delimiter.name == name) =
          (Balance.delimiters text (segment text)).filter fun delimiter =>
            delimiter.toDelimiterToken == ⟨.closing, name⟩ := by
      apply List.filter_congr
      rintro ⟨⟨side, other⟩, position⟩ -
      rw [Bool.eq_iff_iff]
      simp
    have hplain : (((Balance.delimiters text (segment text)).filter fun delimiter =>
        delimiter.toDelimiterToken == ⟨.closing, name⟩).reverse.filter fun delimiter =>
          isPlainAt text delimiter.position) = (plainClosers text name).reverse := by
      rw [List.filter_reverse, List.filter_filter, plainClosers]
      simp only [Bool.and_comm]
    -- What was taken out for other names is apart from the closers of this one.
    have htried := @removeFirst_eq text earlier
      ((Balance.delimiters text (segment text)).filter fun delimiter =>
        delimiter.toDelimiterToken == ⟨.closing, name⟩).reverse
      (Environment.closer name).length (count.closed - count.opened) ?_ ?_ ?_
    · have hcount : count.closed - count.opened -
          (count.closed - count.opened - (plainClosers text name).length) =
            (removalsFor text (name, count)).length := by
        simp [removalsFor]
        omega
      have hleft : count.closed - count.opened - (plainClosers text name).length =
          count.closed - count.opened - (removalsFor text (name, count)).length := by
        simp [removalsFor]
        omega
      rw [hplain, List.length_reverse] at htried
      simp only [balance, if_neg hlt, remove, hclosers, htried, hcount, hnone, fixesFor]
      rw [← hleft]
      simp [appendixFor, removalsFor]
    · refine List.forall_mem_append.mpr ⟨hread, fun delimiter hdelimiter => ?_⟩
      simp only [List.mem_reverse, List.mem_filter, Balance.mem_delimiters_segment] at hdelimiter
      exact hdelimiter.1.1
    · refine List.nodup_append.mpr
        ⟨hnodup, List.nodup_reverse.mpr ((nodup_delimiters text).filter _), ?_⟩
      rintro other hother delimiter hdelimiter rfl
      simp only [List.mem_reverse, List.mem_filter, beq_iff_eq] at hdelimiter
      exact hname other hother (by rw [hdelimiter.2])
    · intro delimiter hdelimiter
      simp only [List.mem_reverse, List.mem_filter, beq_iff_eq] at hdelimiter
      rw [Environment.closer_eq_source, hdelimiter.2]

/-! ## All names -/

theorem delimiterAt?_of_mem_removals {tally : Balance.Tally}
    (h : delimiter ∈ tally.flatMap (removalsFor text)) :
    delimiterAt? text delimiter.position = some delimiter := by
  obtain ⟨entry, -, hdelimiter⟩ := List.mem_flatMap.mp h
  exact (mem_plainClosers.mp (mem_removalsFor hdelimiter)).1.1

theorem exists_name_of_mem_removals {tally : Balance.Tally}
    (h : delimiter ∈ tally.flatMap (removalsFor text)) :
    ∃ entry ∈ tally, delimiter.toDelimiterToken = ⟨.closing, entry.1⟩ := by
  obtain ⟨entry, hentry, hdelimiter⟩ := List.mem_flatMap.mp h
  exact ⟨entry, hentry, (mem_plainClosers.mp (mem_removalsFor hdelimiter)).2.1⟩

theorem nodup_removals {tally : Balance.Tally} (htally : tally.IsSorted) :
    (tally.flatMap (removalsFor text)).Nodup := by
  refine List.nodup_flatMap.mpr ⟨fun entry _ => nodup_removalsFor text entry, ?_⟩
  apply htally.imp
  intro first second hlt delimiter hfirst hsecond
  have hname := (mem_plainClosers.mp (mem_removalsFor hfirst)).2.1
  rw [(mem_plainClosers.mp (mem_removalsFor hsecond)).2.1, DelimiterToken.mk.injEq] at hname
  rw [hname.2] at hlt
  exact List.lt_irrefl _ hlt

/-- The names are balanced one after the other, and no edit of one is refused for another. -/
theorem foldl_balance_eq (text : Text) {tally : Balance.Tally} (htally : tally.IsSorted) :
    tally.foldl (balance (Balance.delimiters text (segment text)))
        ⟨Draft.without text [], [], []⟩ =
      ⟨Draft.without text (tally.flatMap (removalsFor text)), appendixFor (missingNames tally),
        tally.flatMap (fixesFor text)⟩ := by
  induction tally using List.reverseRecOn with
  | nil => rfl
  | append_singleton tally entry ih =>
      obtain ⟨hbefore, -, hentry⟩ := List.pairwise_append.mp htally
      have hname : ∀ other ∈ tally.flatMap (removalsFor text), other.name ≠ entry.1 := by
        intro other hother heq
        obtain ⟨first, hfirst, htoken⟩ := exists_name_of_mem_removals hother
        have hlt := hentry first hfirst entry (List.mem_singleton_self entry)
        rw [htoken] at heq
        exact List.lt_irrefl _ (heq ▸ hlt)
      rw [List.foldl_concat, ih hbefore, balance_eq
        (fun other hother => delimiterAt?_of_mem_removals hother) (nodup_removals hbefore) hname]
      simp [appendixFor, missingNames]

/-- What a pass over a text has done about the names of a tally. -/
structure Settles (text : Text) (tally : Balance.Tally) (removed : List Delimiter)
    (pass : CloserPass) : Prop where
  draft : pass.draft = ⟨text, segment text, removed.map Delimiter.removal⟩
  sound : pass.draft.IsSound
  closers : ∀ delimiter ∈ removed, delimiter ∈ Balance.delimiters text (segment text) ∧
    delimiter.side = .closing
  appendix : pass.appendix = appendixFor (missingNames tally)
  named : ∀ fix ∈ pass.fixes, Text.ofString "add_end_" <+: fix.name ∨
    Text.ofString "remove_end_" <+: fix.name
  applied : Fix.countApplied pass.fixes = (missingNames tally).length + removed.length
  complete : (∀ fix ∈ pass.fixes, fix.applied = true) → removed.map (·.name) = surplusNames tally

theorem mem_fixesFor {entry : Text × Balance.Count} {fix : Fix} :
    fix ∈ fixesFor text entry ↔
      entry.2.opened - entry.2.closed ≠ 0 ∧ fix = added entry.1 ∨
        (removalsFor text entry).length ≠ 0 ∧ fix = removed entry.1 ∨
          entry.2.closed - entry.2.opened - (removalsFor text entry).length ≠ 0 ∧
            fix = kept entry.1 := by
  simp only [fixesFor, List.mem_append, List.mem_replicate]

theorem countApplied_fixesFor (text : Text) (entry : Text × Balance.Count) :
    Fix.countApplied (fixesFor text entry) =
      entry.2.opened - entry.2.closed + (removalsFor text entry).length := by
  simp [Fix.countApplied, fixesFor, List.countP_append, List.countP_replicate, added, removed,
    kept]

theorem countApplied_fixes (text : Text) (tally : Balance.Tally) :
    Fix.countApplied (tally.flatMap (fixesFor text)) =
      (missingNames tally).length + (tally.flatMap (removalsFor text)).length := by
  induction tally with
  | nil => rfl
  | cons entry rest ih =>
      have hentry := countApplied_fixesFor text entry
      simp only [Fix.countApplied] at ih hentry ⊢
      simp only [missingNames, List.flatMap_cons, List.countP_append, List.length_append,
        List.length_replicate] at ih ⊢
      omega

theorem names_removalsFor {entry : Text × Balance.Count}
    (h : ∀ fix ∈ fixesFor text entry, fix.applied = true) :
    (removalsFor text entry).map (·.name) =
      List.replicate (entry.2.closed - entry.2.opened) entry.1 := by
  have hall : entry.2.closed - entry.2.opened ≤ (removalsFor text entry).length := by
    by_contra hless
    have hkept := h (kept entry.1) (mem_fixesFor.mpr (.inr (.inr ⟨by omega, rfl⟩)))
    simp [kept] at hkept
  refine List.eq_replicate_iff.mpr ⟨?_, ?_⟩
  · rw [List.length_map]
    apply Nat.le_antisymm _ hall
    simp [removalsFor]
  · refine List.forall_mem_map.mpr fun delimiter hdelimiter => ?_
    rw [(mem_plainClosers.mp (mem_removalsFor hdelimiter)).2.1]

end CloserPass

def tallyOf (text : Text) : Balance.Tally :=
  .ofDelimiters (Balance.delimiters text (segment text))

def removals (text : Text) : List Delimiter :=
  (tallyOf text).flatMap (CloserPass.removalsFor text)

def closerPass (text : Text) : CloserPass :=
  (tallyOf text).foldl (CloserPass.balance (Balance.delimiters text (segment text)))
    ⟨{ text := text, spans := segment text }, [], []⟩

theorem balanceEnvironments_eq (text : Text) :
    balanceEnvironments text = ((closerPass text).finish.apply, (closerPass text).fixes) := rfl

theorem closerPass_eq (text : Text) :
    closerPass text =
      ⟨Draft.without text (removals text),
        CloserPass.appendixFor (CloserPass.missingNames (tallyOf text)),
        (tallyOf text).flatMap (CloserPass.fixesFor text)⟩ :=
  CloserPass.foldl_balance_eq text (Balance.Tally.isSorted_ofDelimiters _)

open CloserPass in
theorem settles_removals (text : Text) :
    Settles text (tallyOf text) (removals text) (closerPass text) := by
  have hsorted : (tallyOf text).IsSorted := Balance.Tally.isSorted_ofDelimiters _
  rw [closerPass_eq]
  refine ⟨rfl, Draft.isSound_without (fun _ => delimiterAt?_of_mem_removals)
    (nodup_removals hsorted), ?_, rfl, ?_, ?_, ?_⟩
  · intro delimiter hdelimiter
    obtain ⟨entry, -, hentry⟩ := List.mem_flatMap.mp hdelimiter
    obtain ⟨hcounted, htoken, -⟩ := mem_plainClosers.mp (mem_removalsFor hentry)
    exact ⟨Balance.mem_delimiters_segment.mpr hcounted, by rw [htoken]⟩
  · intro fix hfix
    obtain ⟨entry, -, hentry⟩ := List.mem_flatMap.mp hfix
    rcases mem_fixesFor.mp hentry with ⟨-, rfl⟩ | ⟨-, rfl⟩ | ⟨-, rfl⟩
    · exact .inl (List.prefix_append _ _)
    · exact .inr (List.prefix_append _ _)
    · exact .inr (List.prefix_append _ _)
  · exact countApplied_fixes text (tallyOf text)
  · intro hall
    simp only [removals, surplusNames, List.map_flatMap]
    apply List.flatMap_congr
    intro entry hentry
    exact names_removalsFor fun fix hfix => hall fix (List.mem_flatMap.mpr ⟨entry, hentry, hfix⟩)

theorem settles_closerPass (text : Text) :
    ∃ removed, CloserPass.Settles text (tallyOf text) removed (closerPass text) :=
  ⟨removals text, settles_removals text⟩

/-! ## The end of the text -/

theorem not_isInnerByte_of_isSpace {b : UInt8} (h : Ascii.isSpace b = true) :
    b ≠ '\\' ∧ DelimiterToken.isInnerByte b = false := by
  revert b
  apply Ascii.forall_byte
  decide +kernel

theorem stop_le_of_isSpace {text : Text} {delimiter : Delimiter} {limit : Nat}
    (h : delimiterAt? text delimiter.position = some delimiter)
    (hblank : ∀ b ∈ text.drop limit, Ascii.isSpace b = true) : delimiter.stop ≤ limit := by
  have hdrop := drop_of_delimiterAt? h
  have hlength : delimiter.source.length = (delimiter.head ++ delimiter.name).length + 1 := by
    rw [DelimiterToken.source_eq_concat, List.length_append, List.length_singleton]
  have hclose : ('}' : UInt8) ∈
      text.drop (delimiter.position + (delimiter.head ++ delimiter.name).length) := by
    rw [← List.drop_drop, hdrop, DelimiterToken.source_eq_concat, List.append_assoc, List.drop_left]
    exact List.mem_cons_self
  by_contra hlimit
  unfold Delimiter.stop at hlimit
  rw [text.drop_eq_drop_drop (show limit ≤ _ by omega)] at hclose
  exact absurd (hblank _ (List.mem_of_mem_drop hclose)) (by decide)

theorem trimEnd_append (p : UInt8 → Bool) (text : Text) :
    Text.trimEnd p text ++ (text.reverse.takeWhile p).reverse = text := by
  rw [Text.trimEnd, ← List.reverse_append, List.takeWhile_append_dropWhile, List.reverse_reverse]

namespace CloserPass

theorem contentEnd_spec {text : Text} {spans : List Span}
    (htiles : Span.Tiles text.length 0 spans) :
    contentEnd text spans ≤ text.length ∧
      (∀ b ∈ text.drop (contentEnd text spans), Ascii.isSpace b = true) ∧
      (contentEnd text spans < text.length →
        ∃ span, Span.findAt? spans (contentEnd text spans) = some span ∧
          span.kind = .plain ∧ span.stop = text.length) := by
  unfold contentEnd
  cases hlast : spans.getLast? with
  | none => simp
  | some span =>
      by_cases hplain : span.kind = .plain
      · have hspan := List.mem_of_getLast? hlast
        have hstop := htiles.stop_of_getLast? hlast
        have hbounds := htiles.bounds hspan
        have hsplit := trimEnd_append Ascii.isSpace (text.drop span.start)
        simp only [hplain, beq_self_eq_true, if_true, htiles.findAt?_eq_some_iff]
        generalize Text.trimEnd Ascii.isSpace (text.drop span.start) = content at hsplit
        have hlength := congrArg List.length hsplit
        simp only [List.length_append, List.length_drop] at hlength
        refine ⟨by omega, ?_, fun hlt => ⟨span, ⟨hspan, ?_⟩, hplain, hstop⟩⟩
        · rw [← List.drop_drop, ← hsplit, List.drop_left]
          intro b hb
          exact List.all_eq_true.mp List.all_takeWhile b (List.mem_reverse.mp hb)
        · rw [Span.contains_iff]
          omega
      · simp [hplain]

theorem isReplaceable_contentEnd {draft : Draft} (h : draft.IsSound) :
    draft.isReplaceable (contentEnd draft.text draft.spans)
      (draft.text.length - contentEnd draft.text draft.spans) = true := by
  obtain ⟨hle, -, hplain⟩ := contentEnd_spec h.tiles
  generalize contentEnd draft.text draft.spans = offset at hle hplain
  unfold Draft.isReplaceable
  rw [if_neg (by simp; omega)]
  rcases Nat.eq_or_lt_of_le hle with rfl | hlt
  · simp
  · obtain ⟨span, hfind, hkind, hstop⟩ := hplain hlt
    rw [if_neg (by simp; omega), hfind]
    simp [hkind, hstop]
    omega

theorem finish_of_ne_nil {pass : CloserPass} (h : pass.draft.IsSound) (hne : pass.appendix ≠ [])
    (hbefore : ∀ edit ∈ pass.draft.edits,
      edit.offset + edit.length ≤ contentEnd pass.draft.text pass.draft.spans) :
    pass.finish.IsSound ∧
      pass.finish = pass.draft.record ⟨contentEnd pass.draft.text pass.draft.spans,
        pass.draft.text.length - contentEnd pass.draft.text pass.draft.spans,
        pass.appendix ++ Text.ofString "\n"⟩ := by
  have hreplace := Draft.replace?_of_le (pass.appendix ++ Text.ofString "\n")
    (isReplaceable_contentEnd h) hbefore
  apply h.replace?
  simp [finish, hne, hreplace]

end CloserPass

/-! ## The delimiters of the balanced text -/

theorem tokensFrom_appendix {names : List Text} (hnames : ∀ name ∈ names, Environment.IsName name)
    (context : LeftContext) :
    tokensFrom context (CloserPass.appendixFor names ++ Text.ofString "\n") =
      names.map (DelimiterToken.mk .closing) := by
  have hfeed : Text.ofString "\n" = [('\n' : UInt8)] := by decide
  have hline : ∀ rest context, tokensFrom context (('\n' : UInt8) :: rest) =
      tokensFrom (context.push '\n') rest := by
    intro rest context
    rw [← List.singleton_append, tokensFrom_append, tokensFrom_eq_nil (by decide)]
    · rfl
    · exact IsSevered.of_not_mem (by decide)
  induction names generalizing context with
  | nil => exact tokensFrom_eq_nil (by decide) context
  | cons name rest ih =>
      obtain ⟨hname, hrest⟩ := List.forall_mem_cons.mp hnames
      rw [CloserPass.appendixFor, List.flatMap_cons, ← CloserPass.appendixFor,
        Environment.closer_eq_source, hfeed, List.append_assoc, List.append_assoc,
        List.singleton_append, hline, tokensFrom_append (isSevered_source _ _),
        tokensFrom_source hname rfl, ← hfeed, ih hrest]
      rfl

variable {text : Text} {limit : Nat}

theorem tokensFrom_of_isSpace (hblank : ∀ b ∈ text.drop limit, Ascii.isSpace b = true)
    {position : Nat} (hle : position ≤ limit) (context : LeftContext) :
    tokensFrom context (text.drop position) = tokensFrom context (text.slice position limit) := by
  have hsevered : IsSevered (text.slice position limit) (text.drop limit) := by
    apply IsSevered.of_head
    intro b hb
    exact (not_isInnerByte_of_isSpace (hblank b (List.mem_of_head? hb))).2
  have hplain : ('\\' : UInt8) ∉ text.drop limit := by
    intro hmem
    exact (not_isInnerByte_of_isSpace (hblank _ hmem)).1 rfl
  rw [← text.slice_append_drop hle, tokensFrom_append hsevered, tokensFrom_eq_nil hplain,
    List.append_nil]

theorem tokensFrom_splice_appendix {names : List Text}
    (hnames : ∀ name ∈ names, Environment.IsName name) {position : Nat}
    (hposition : position ≤ CloserPass.contentEnd text (segment text)) (context : LeftContext) :
    tokensFrom context (Edit.splice text position (CloserPass.appendixEdits text names)) =
      tokensFrom context (text.drop position) ++ names.map (DelimiterToken.mk .closing) := by
  obtain ⟨hle, hblank, -⟩ := CloserPass.contentEnd_spec (tiles_segment text)
  cases names with
  | nil => simp [CloserPass.appendixEdits, Edit.splice]
  | cons name rest =>
      simp only [CloserPass.appendixEdits, List.isEmpty_cons, Bool.false_eq_true, if_false]
      generalize CloserPass.contentEnd text (segment text) = limit at hle hblank hposition
      have hend : text.drop (limit + (text.length - limit)) = [] :=
        List.drop_eq_nil_of_le (by omega)
      have hsevered : IsSevered (text.slice position limit)
          (CloserPass.appendixFor (name :: rest) ++ Text.ofString "\n") := by
        apply IsSevered.of_head
        intro b hb
        cases hb
        decide
      rw [Edit.splice, Edit.splice, hend, List.append_nil, tokensFrom_append hsevered,
        tokensFrom_appendix hnames, tokensFrom_of_isSpace hblank hposition]

namespace CloserPass

variable {tally : Balance.Tally} {removed : List Delimiter} {pass : CloserPass}

theorem Settles.read (h : Settles text tally removed pass) {delimiter : Delimiter}
    (hdelimiter : delimiter ∈ removed) :
    delimiterAt? text delimiter.position = some delimiter :=
  (Balance.mem_delimiters_segment.mp (h.closers delimiter hdelimiter).1).1

theorem Settles.stop_le (h : Settles text tally removed pass) {delimiter : Delimiter}
    (hdelimiter : delimiter ∈ removed) : delimiter.stop ≤ contentEnd text (segment text) := by
  obtain ⟨-, hblank, -⟩ := contentEnd_spec (tiles_segment text)
  exact stop_le_of_isSpace (h.read hdelimiter) hblank

theorem Settles.finish_spec (h : Settles text tally removed pass) :
    pass.finish.IsSound ∧
      pass.finish = ⟨text, segment text,
        removed.map Delimiter.removal ++ appendixEdits text (missingNames tally)⟩ := by
  obtain ⟨draft, appendix, fixes⟩ := pass
  obtain rfl : draft = ⟨text, segment text, removed.map Delimiter.removal⟩ := h.draft
  obtain rfl : appendix = appendixFor (missingNames tally) := h.appendix
  have hsound := h.sound
  cases hmissing : missingNames tally with
  | nil => simpa [finish, appendixFor, appendixEdits] using hsound
  | cons name rest =>
      have hne : appendixFor (name :: rest) ≠ [] := by
        simp [appendixFor, Environment.closer_eq_source, DelimiterToken.source_ne_nil]
      have hbefore : ∀ edit ∈ removed.map Delimiter.removal,
          edit.offset + edit.length ≤ contentEnd text (segment text) :=
        List.forall_mem_map.mpr fun delimiter => h.stop_le
      exact finish_of_ne_nil hsound hne hbefore

theorem Settles.inTextOrder_finish (h : Settles text tally removed pass) :
    Edit.inTextOrder text.length
        (removed.map Delimiter.removal ++ appendixEdits text (missingNames tally)) =
      (Edit.arrange Delimiter.removal text.length removed).map Delimiter.removal ++
        appendixEdits text (missingNames tally) := by
  obtain ⟨hle, -, -⟩ := contentEnd_spec (tiles_segment text)
  rw [Edit.map_arrange]
  unfold appendixEdits
  split
  · simp
  · apply Edit.inTextOrder_concat
    · simpa [h.draft] using h.sound.apart
    · intro edit hedit
      obtain ⟨delimiter, -, rfl⟩ := List.mem_map.mp hedit
      exact List.length_pos_iff.mpr delimiter.source_ne_nil
    · exact List.forall_mem_map.mpr fun delimiter => h.stop_le
    · exact hle

theorem Settles.mem_arrange (h : Settles text tally removed pass) {delimiter : Delimiter} :
    delimiter ∈ Edit.arrange Delimiter.removal text.length removed ↔ delimiter ∈ removed := by
  rw [Edit.mem_arrange, and_iff_left_iff_imp]
  intro hdelimiter
  exact Nat.le_trans (Nat.le_add_right _ _) (Delimiter.stop_le_length (h.read hdelimiter))

theorem Settles.follow_arrange (h : Settles text tally removed pass) :
    Edit.Follow ((Edit.arrange Delimiter.removal text.length removed).map Delimiter.removal) := by
  rw [Edit.map_arrange]
  apply Edit.follow_inTextOrder
  simpa [h.draft] using h.sound.apart

theorem Settles.tokensFrom_apply (h : Settles text tally removed pass)
    (hnames : ∀ name ∈ missingNames tally, Environment.IsName name)
    (hends : ∀ edit ∈ pass.draft.edits, endsInDelimiter (text.take edit.offset) = false) :
    (tokensFrom .initial text ++ (missingNames tally).map (DelimiterToken.mk .closing)).Perm
      (removed.map Delimiter.toDelimiterToken ++ tokensFrom .initial pass.finish.apply) := by
  obtain ⟨hsound, hfinish⟩ := h.finish_spec
  rw [h.draft, List.forall_mem_map] at hends
  have hperm : (Edit.arrange Delimiter.removal text.length removed).Perm removed :=
    Edit.arrange_perm fun delimiter hdelimiter =>
      (Edit.mem_arrange.mp (h.mem_arrange.mpr hdelimiter)).2
  have hsplice := tokensFrom_splice_removals
    (fun position hposition => tokensFrom_splice_appendix hnames hposition _) (Nat.zero_le _)
    (fun delimiter hdelimiter => h.read (h.mem_arrange.mp hdelimiter))
    (fun delimiter hdelimiter => hends _ (h.mem_arrange.mp hdelimiter)) h.follow_arrange
    (fun _ _ => Nat.zero_le _) fun delimiter hdelimiter => h.stop_le (h.mem_arrange.mp hdelimiter)
  rw [hsound.apply_eq, hfinish, h.inTextOrder_finish]
  exact hsplice.trans ((hperm.map _).append_right _)

end CloserPass

theorem balanceEnvironments_eq_splice (text : Text) :
    (balanceEnvironments text).1 =
      Edit.splice text 0 (Edit.inTextOrder text.length (closerPass text).finish.edits) := by
  obtain ⟨removed, hsettles⟩ := settles_closerPass text
  obtain ⟨hsound, hfinish⟩ := hsettles.finish_spec
  rw [balanceEnvironments_eq, hsound.apply_eq, hfinish]

end LatexIntegrity.Repair
