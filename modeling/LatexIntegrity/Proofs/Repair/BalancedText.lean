import LatexIntegrity.Proofs.Repair.Closers

/-!
# What balancing environments does to a text

The fixes of the pass tell its edits.  Each surplus closer in plain text that the tally asks
for is taken out, and each missing one is appended in a line of its own; whatever names there
are, none of these edits is refused, and every other byte stays.
-/

namespace LatexIntegrity

def Delimiter.holds (delimiter : Delimiter) (offset : Nat) : Bool :=
  delimiter.position ≤ offset && offset < delimiter.stop

def bytesOutside (removed : List Delimiter) (text : Text) (start stop : Nat) : Text :=
  ((List.Ico start stop).filter fun offset => !removed.any (·.holds offset)).filterMap
    (text[·]?)

section

variable {text : Text} {removed : List Delimiter} {start middle stop limit : Nat}

/-! ## Taking delimiters out of a text -/

theorem filterMap_range' (text : Text) (start length : Nat) :
    (List.range' start length).filterMap (text[·]?) = (text.drop start).take length := by
  induction length generalizing start with
  | zero => simp
  | succ length ih =>
      rw [List.range'_succ]
      by_cases hstart : start < text.length
      · rw [List.filterMap_cons_some (List.getElem?_eq_getElem hstart), ih,
          List.drop_eq_getElem_cons hstart, List.take_succ_cons]
      · have hnone : text[start]? = none := List.getElem?_eq_none (by omega)
        rw [List.filterMap_cons_none hnone, ih, List.drop_eq_nil_of_le (by omega),
          List.drop_eq_nil_of_le (by omega), List.take_nil, List.take_nil]

theorem bytesOutside_eq_slice
    (h : ∀ delimiter ∈ removed, ∀ offset, start ≤ offset → offset < stop →
      delimiter.holds offset = false) :
    bytesOutside removed text start stop = text.slice start stop := by
  have hall : ((List.Ico start stop).filter fun offset => !removed.any (·.holds offset)) =
      List.Ico start stop := by
    refine List.filter_eq_self.mpr fun offset hoffset => ?_
    rw [List.Ico.mem] at hoffset
    simpa using fun delimiter hdelimiter => h delimiter hdelimiter offset hoffset.1 hoffset.2
  rw [bytesOutside, hall]
  exact filterMap_range' text start (stop - start)

theorem bytesOutside_eq_nil
    (h : ∀ offset, start ≤ offset → offset < stop → ∃ delimiter ∈ removed,
      delimiter.holds offset = true) : bytesOutside removed text start stop = [] := by
  have hnone : ((List.Ico start stop).filter fun offset => !removed.any (·.holds offset)) =
      [] := by
    refine List.filter_eq_nil_iff.mpr fun offset hoffset => ?_
    rw [List.Ico.mem] at hoffset
    simpa using h offset hoffset.1 hoffset.2
  rw [bytesOutside, hnone, List.filterMap_nil]

theorem bytesOutside_append (removed : List Delimiter) (text : Text) (hstart : start ≤ middle)
    (hstop : middle ≤ stop) :
    bytesOutside removed text start middle ++ bytesOutside removed text middle stop =
      bytesOutside removed text start stop := by
  rw [bytesOutside, bytesOutside, bytesOutside, ← List.filterMap_append, ← List.filter_append,
    List.Ico.append_consecutive hstart hstop]

theorem bytesOutside_cons {delimiter : Delimiter} (h : delimiter.stop ≤ start) :
    bytesOutside (delimiter :: removed) text start stop = bytesOutside removed text start stop := by
  unfold bytesOutside
  congr 1
  refine List.filter_congr fun offset hoffset => ?_
  rw [List.Ico.mem] at hoffset
  have hbefore : delimiter.holds offset = false := by
    simp [Delimiter.holds]
    omega
  simp [hbefore]

theorem bytesOutside_congr {other : List Delimiter}
    (h : ∀ delimiter, delimiter ∈ removed ↔ delimiter ∈ other) (text : Text)
    (start stop : Nat) :
    bytesOutside removed text start stop = bytesOutside other text start stop := by
  have hany : ∀ offset, removed.any (·.holds offset) = other.any (·.holds offset) := by
    intro offset
    rw [Bool.eq_iff_iff]
    simp [h]
  simp only [bytesOutside, hany]

theorem splice_removals {tail : List Edit} {added : Text}
    (htail : ∀ position ≤ limit,
      Edit.splice text position tail = text.slice position limit ++ added)
    {position : Nat} (hposition : position ≤ limit)
    (hfollow : Edit.Follow (removed.map Delimiter.removal))
    (hlower : ∀ delimiter ∈ removed, position ≤ delimiter.position)
    (hupper : ∀ delimiter ∈ removed, delimiter.stop ≤ limit) :
    Edit.splice text position (removed.map Delimiter.removal ++ tail) =
      bytesOutside removed text position limit ++ added := by
  induction removed generalizing position with
  | nil =>
      rw [List.map_nil, List.nil_append, htail position hposition,
        bytesOutside_eq_slice (by simp)]
  | cons delimiter rest ih =>
      obtain ⟨hstart, -⟩ := List.forall_mem_cons.mp hlower
      obtain ⟨hstop, hupper⟩ := List.forall_mem_cons.mp hupper
      obtain ⟨hnext, hfollow⟩ := List.pairwise_cons.mp hfollow
      have hrest : ∀ other ∈ rest, delimiter.stop ≤ other.position :=
        fun other hother => hnext _ (List.mem_map_of_mem hother)
      have hwide : delimiter.position ≤ delimiter.stop := Nat.le_add_right _ _
      have hgap : bytesOutside (delimiter :: rest) text position delimiter.position =
          text.slice position delimiter.position := by
        apply bytesOutside_eq_slice
        intro other hother offset _ hoffset
        have hle : delimiter.position ≤ other.position := by
          rcases List.mem_cons.mp hother with rfl | hother
          · exact Nat.le_refl _
          · exact Nat.le_trans hwide (hrest other hother)
        simp [Delimiter.holds]
        omega
      have htaken : bytesOutside (delimiter :: rest) text delimiter.position delimiter.stop =
          [] := by
        apply bytesOutside_eq_nil
        intro offset hle hlt
        exact ⟨delimiter, List.mem_cons_self, by simp [Delimiter.holds, hle, hlt]⟩
      -- The bytes outside of the removals are those in front of the first one and behind it.
      calc Edit.splice text position ((delimiter :: rest).map Delimiter.removal ++ tail)
          = text.slice position delimiter.position ++
              Edit.splice text delimiter.stop (rest.map Delimiter.removal ++ tail) := by
            simp [Edit.splice, Delimiter.removal, Delimiter.stop]
        _ = bytesOutside (delimiter :: rest) text position delimiter.position ++
              (bytesOutside (delimiter :: rest) text delimiter.position delimiter.stop ++
                bytesOutside (delimiter :: rest) text delimiter.stop limit) ++ added := by
            rw [ih hstop hfollow hrest hupper, hgap, htaken,
              bytesOutside_cons (Nat.le_refl _)]
            simp
        _ = bytesOutside (delimiter :: rest) text position limit ++ added := by
            rw [bytesOutside_append _ _ hwide hstop,
              bytesOutside_append _ _ hstart (Nat.le_trans hwide hstop)]

end

namespace Repair

variable {text : Text}

/-! ## The end of the content -/

/-- A text ends here, but for the white space at the end of a last span that is plain. -/
structure IsContentEnd (text : Text) (limit : Nat) : Prop where
  bound : limit ≤ text.length
  blank : ∀ b ∈ text.drop limit, Ascii.isSpace b = true
  shielded : ∀ span, (segment text).getLast? = some span → span.kind ≠ .plain →
    limit = text.length
  plain : ∀ span, (segment text).getLast? = some span → span.kind = .plain →
    span.start ≤ limit ∧
      (span.start < limit → ∃ b, text[limit - 1]? = some b ∧ Ascii.isSpace b = false)

theorem getLast?_trimEnd {p : UInt8 → Bool} {b : UInt8}
    (h : (Text.trimEnd p text).getLast? = some b) : p b = false := by
  rw [Text.trimEnd, List.getLast?_reverse] at h
  have hhead := List.head?_dropWhile_not p text.reverse
  rw [h] at hhead
  simpa using hhead

theorem isContentEnd_contentEnd (text : Text) :
    IsContentEnd text (CloserPass.contentEnd text (segment text)) := by
  obtain ⟨hbound, hblank, -⟩ := CloserPass.contentEnd_spec (tiles_segment text)
  refine ⟨hbound, hblank, ?_, ?_⟩
  · intro span hlast hkind
    simp [CloserPass.contentEnd, hlast, hkind]
  · intro span hlast hkind
    have hlimit : CloserPass.contentEnd text (segment text) =
        span.start + (Text.trimEnd Ascii.isSpace (text.drop span.start)).length := by
      simp [CloserPass.contentEnd, hlast, hkind]
    rw [hlimit]
    refine ⟨Nat.le_add_right _ _, fun hlt => ?_⟩
    have hprefix := trimEnd_append Ascii.isSpace (text.drop span.start)
    generalize hcontent : Text.trimEnd Ascii.isSpace (text.drop span.start) = content at hprefix hlt
    have hpos : 0 < content.length := by omega
    have hlast := List.getLast?_eq_some_getLast (List.ne_nil_of_length_pos hpos)
    refine ⟨_, ?_, getLast?_trimEnd (by rw [hcontent, hlast])⟩
    rw [← hlast, List.getLast?_eq_getElem?, Nat.add_sub_assoc hpos, ← List.getElem?_drop,
      ← hprefix, List.getElem?_append_left (by omega)]

/-! ## The whole pass -/

def appended (names : List Text) : Text := CloserPass.appendixFor names ++ Text.ofString "\n"

theorem splice_appendixEdits {names : List Text} (hne : names ≠ []) (position : Nat) :
    Edit.splice text position (CloserPass.appendixEdits text names) =
      text.slice position (CloserPass.contentEnd text (segment text)) ++ appended names := by
  have hbound := (isContentEnd_contentEnd text).bound
  rw [CloserPass.appendixEdits, if_neg (by simpa using hne), Edit.splice, Edit.splice,
    Nat.add_sub_cancel' hbound, List.drop_length, List.append_nil]
  rfl

theorem balanceEnvironments_eq_bytesOutside (text : Text) :
    (balanceEnvironments text).1 =
      if CloserPass.missingNames (tallyOf text) = [] then
        bytesOutside (removals text) text 0 text.length
      else
        bytesOutside (removals text) text 0 (CloserPass.contentEnd text (segment text)) ++
          appended (CloserPass.missingNames (tallyOf text)) := by
  have hsettles := settles_removals text
  obtain ⟨hsound, hfinish⟩ := hsettles.finish_spec
  have hmem : ∀ delimiter, delimiter ∈ Edit.arrange Delimiter.removal text.length (removals text) ↔
      delimiter ∈ removals text := fun _ => hsettles.mem_arrange
  rw [balanceEnvironments_eq_splice, hfinish, hsettles.inTextOrder_finish]
  split
  · next hnone =>
      have htail : ∀ position ≤ text.length,
          Edit.splice text position (CloserPass.appendixEdits text []) =
            text.slice position text.length ++ [] := by
        intro position _
        simp [CloserPass.appendixEdits, Edit.splice, Text.slice]
      rw [hnone, splice_removals htail (Nat.zero_le _) hsettles.follow_arrange
        (fun _ _ => Nat.zero_le _)
        (fun delimiter hdelimiter => Delimiter.stop_le_length
          (hsettles.read ((hmem delimiter).mp hdelimiter))),
        List.append_nil, bytesOutside_congr hmem]
  · next hsome =>
      rw [splice_removals (fun position _ => splice_appendixEdits hsome position)
        (Nat.zero_le _) hsettles.follow_arrange (fun _ _ => Nat.zero_le _)
        (fun delimiter hdelimiter => hsettles.stop_le ((hmem delimiter).mp hdelimiter)),
        bytesOutside_congr hmem]

/--
The pass does what its fixes say.  For each name, in the order of the names, it adds the closers
that are missing, and takes out as many of the last plain closers as are too many; what is left
of these has a fix that is not applied.  Every edit is recorded, and the text is the old one
without the closers taken out and with the new closers in lines behind its content.
-/
theorem balanceEnvironments_exact (text : Text) :
    let tally := Balance.Tally.ofDelimiters (Balance.delimiters text (segment text))
    let missing := CloserPass.missingNames tally
    let removed := tally.flatMap fun entry =>
      (CloserPass.plainClosers text entry.1).reverse.take (entry.2.closed - entry.2.opened)
    tally.IsSorted ∧
    (balanceEnvironments text).2 = (tally.flatMap fun entry =>
      let surplus := entry.2.closed - entry.2.opened
      let plain := (CloserPass.plainClosers text entry.1).length
      List.replicate (entry.2.opened - entry.2.closed) (CloserPass.added entry.1) ++
        (List.replicate (min surplus plain) (CloserPass.removed entry.1) ++
          List.replicate (surplus - min surplus plain) (CloserPass.kept entry.1))) ∧
    Fix.countApplied (balanceEnvironments text).2 = missing.length + removed.length ∧
    ∃ limit, IsContentEnd text limit ∧
      (closerPass text).finish.edits = removed.map Delimiter.removal ++
        (if missing = [] then [] else [⟨limit, text.length - limit, appended missing⟩]) ∧
      (balanceEnvironments text).1 =
        if missing = [] then bytesOutside removed text 0 text.length
        else bytesOutside removed text 0 limit ++ appended missing := by
  intro tally missing removed
  have hsettles := settles_removals text
  refine ⟨Balance.Tally.isSorted_ofDelimiters _, ?_, hsettles.applied,
    CloserPass.contentEnd text (segment text), isContentEnd_contentEnd text, ?_,
    balanceEnvironments_eq_bytesOutside text⟩
  · rw [balanceEnvironments_eq, closerPass_eq]
    apply List.flatMap_congr
    intro entry _
    simp [CloserPass.fixesFor, CloserPass.removalsFor]
  · rw [hsettles.finish_spec.2, CloserPass.appendixEdits]
    simp only [List.isEmpty_iff]
    rfl

/-- One closer of two is hidden, and a missing one goes behind the trimmed text. -/
example : balanceEnvironments "\\end\x7ba\x7d$\\end\x7ba\x7d$\\begin\x7bb\x7d \n" =
    (Text.ofString "$\\end\x7ba\x7d$\\begin\x7bb\x7d\n\\end\x7bb\x7d\n",
      [CloserPass.removed "a", CloserPass.kept "a", CloserPass.added "b"]) := by
  apply Prod.ext
  · rw [balanceEnvironments_eq_bytesOutside]
    decide +kernel
  · decide +kernel

end Repair

end LatexIntegrity
