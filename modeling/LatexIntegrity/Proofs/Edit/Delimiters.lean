import LatexIntegrity.Proofs.Balance.Hidden
import LatexIntegrity.Proofs.Edit.Draft

/-!
# The delimiters of an edited text

When delimiters are taken out of a text, those left are the other ones, unless the
text in front of one that is taken out has begun another one.  What is inserted at the
beginning of a line cannot break up a delimiter, since none reaches over the end of a line.
-/

namespace LatexIntegrity

theorem tokensFrom_slice_append {text rest : Text} {position offset : Nat}
    (hle : position ≤ offset) (h : IsSevered (text.take offset) rest) :
    tokensFrom (.after (text.take position)) (text.slice position offset ++ rest) =
      tokensFrom (.after (text.take position)) (text.slice position offset) ++
        tokensFrom (.after (text.take offset)) rest := by
  rw [← text.take_append_slice hle] at h
  rw [tokensFrom_after_append h, text.take_append_slice hle]

/-! ## Taking delimiters out -/

def Delimiter.removal (delimiter : Delimiter) : Edit :=
  ⟨delimiter.position, delimiter.source.length, []⟩

/-! ## Delimiters in plain spans -/

theorem isSome_construct?_stop {text : Text} {span : Span} (hspan : span ∈ segment text)
    (hkind : span.kind = .plain) (hstop : span.stop < text.length) :
    (construct? (.after (text.take span.stop)) (text.drop span.stop)).isSome = true := by
  refine @Region.spans_induction
    (fun before rest spans => ∀ span ∈ spans, span.kind = .plain →
      span.stop < (before ++ rest).length →
        (construct? (.after ((before ++ rest).take span.stop))
          ((before ++ rest).drop span.stop)).isSome = true)
    ?_ ?_ ?_ [] text span hspan hkind hstop
  · exact fun _ => List.forall_mem_nil _
  · intro before body rest kind name spans _ hfound hspans
    rw [List.append_assoc] at hspans
    exact List.forall_mem_cons.mpr
      ⟨fun hplain => absurd hplain (construct?_spec hfound).1, hspans⟩
  · intro before run rest spans _ hrun hspans
    rw [List.append_assoc] at hspans
    refine List.forall_mem_cons.mpr ⟨fun _ hlt => ?_, hspans⟩
    have hrest : rest ≠ [] := by
      rintro rfl
      simp at hlt
    have hsome := isSome_construct?_behind hrun hrest
    rwa [← LeftContext.after_append, ← List.append_assoc, ← List.length_append, List.take_left,
      List.drop_left] at *

theorem Delimiter.stop_le_length {text : Text} {delimiter : Delimiter}
    (h : delimiterAt? text delimiter.position = some delimiter) :
    delimiter.stop ≤ text.length := by
  have hlength := congrArg List.length (drop_of_delimiterAt? h)
  have hpos := List.length_pos_iff.mpr delimiter.source_ne_nil
  simp only [List.length_append, List.length_drop] at hlength
  unfold stop at hlength ⊢
  omega

theorem Delimiter.stop_le_of_plain {text : Text} {delimiter : Delimiter} {span : Span}
    (h : delimiterAt? text delimiter.position = some delimiter) (hspan : span ∈ segment text)
    (hkind : span.kind = .plain) (hposition : span.contains delimiter.position = true) :
    delimiter.stop ≤ span.stop := by
  rw [Span.contains_iff] at hposition
  by_contra hlt
  obtain ⟨distance, hdistance⟩ := Nat.exists_eq_add_of_lt hposition.2
  have hbound := stop_le_length h
  have hsome := isSome_construct?_stop hspan hkind (by omega)
  have hinside : distance + 1 < delimiter.source.length := by
    unfold stop at hlt
    omega
  have hdrop : text.drop span.stop =
      delimiter.source.tail.drop distance ++ text.drop delimiter.stop := by
    rw [hdistance, Nat.add_assoc, ← List.drop_drop, drop_of_delimiterAt? h,
      List.drop_append_of_le_length (by omega), List.drop_tail]
  obtain ⟨b, rest, hrest⟩ := List.exists_cons_of_ne_nil
    (List.ne_nil_of_length_pos (l := delimiter.source.tail.drop distance) (by simp; omega))
  have hmem : b ∈ delimiter.source.tail := List.mem_of_mem_drop (i := distance) (by simp [hrest])
  have hne : ∀ other : UInt8, DelimiterToken.isInnerByte other = false → b ≠ other := by
    rintro other hother rfl
    exact DelimiterToken.not_mem_tail_source (isName_of_delimiterAt? h) hother hmem
  rw [hdrop, hrest, List.cons_append, construct?_eq_none_of_head (hne _ (by decide))
    (hne _ (by decide)) (hne _ (by decide))] at hsome
  cases hsome

def isPlainAt (text : Text) (offset : Nat) : Bool :=
  (Span.findAt? (segment text) offset).any (·.kind == .plain)

theorem Delimiter.isApart_removal {text : Text} {first second : Delimiter}
    (hfirst : delimiterAt? text first.position = some first)
    (hsecond : delimiterAt? text second.position = some second) (hne : first ≠ second) :
    first.removal.IsApart second.removal := by
  by_contra hcommon
  simp only [Edit.IsApart, removal, not_or, Nat.not_le] at hcommon
  rcases Nat.lt_trichotomy first.position second.position with hlt | heq | hlt
  · rw [delimiterAt?_inside hfirst hlt (by unfold stop; omega)] at hsecond
    cases hsecond
  · rw [heq, hsecond] at hfirst
    exact hne (Option.some.inj hfirst).symm
  · rw [delimiterAt?_inside hsecond hlt (by unfold stop; omega)] at hfirst
    cases hfirst

section

variable {text : Text} {earlier : List Delimiter} {delimiter : Delimiter}

/-- A draft from which some delimiters of its text are taken out. -/
def Draft.without (text : Text) (removed : List Delimiter) : Draft :=
  ⟨text, segment text, removed.map Delimiter.removal⟩

theorem Draft.isSound_without
    (hread : ∀ delimiter ∈ earlier, delimiterAt? text delimiter.position = some delimiter)
    (hnodup : earlier.Nodup) : (Draft.without text earlier).IsSound where
  tiles := tiles_segment text
  bound := List.forall_mem_map.mpr fun delimiter hdelimiter =>
    Delimiter.stop_le_length (hread delimiter hdelimiter)
  apart := by
    refine List.pairwise_map.mpr (hnodup.imp_of_mem ?_)
    intro first second hfirst hsecond hne
    exact Delimiter.isApart_removal (hread first hfirst) (hread second hsecond) hne

/-- A delimiter of the text can be taken out if its backslash is plain, and else it cannot. -/
theorem Draft.replace?_removal
    (hread : ∀ other ∈ earlier, delimiterAt? text other.position = some other)
    (hdelimiter : delimiterAt? text delimiter.position = some delimiter)
    (hnew : delimiter ∉ earlier) :
    (Draft.without text earlier).replace? delimiter.position delimiter.source.length [] =
      if isPlainAt text delimiter.position then some (Draft.without text (earlier ++ [delimiter]))
      else none := by
  have hstop := Delimiter.stop_le_length hdelimiter
  have hreplaceable : (Draft.without text earlier).isReplaceable delimiter.position
      delimiter.source.length = isPlainAt text delimiter.position := by
    unfold Delimiter.stop at hstop
    unfold isReplaceable isPlainAt without
    rw [if_neg (by simp; omega), if_neg (by simp [delimiter.source_ne_nil])]
    cases hfind : Span.findAt? (segment text) delimiter.position with
    | none => rfl
    | some span =>
        obtain ⟨hspan, hoffset⟩ := Span.mem_of_findAt? hfind
        rw [Option.any_some, Option.any_some, Bool.and_eq_left_iff_imp, beq_iff_eq,
          decide_eq_true_eq]
        exact fun hkind => Delimiter.stop_le_of_plain hdelimiter hspan hkind hoffset
  have hfree : (Draft.without text earlier).isTaken delimiter.position
      delimiter.source.length = false := by
    apply List.any_eq_false.mpr
    refine List.forall_mem_map.mpr fun other hother => ?_
    have hapart := Delimiter.isApart_removal (hread other hother) hdelimiter
      (fun heq => hnew (heq ▸ hother))
    simp only [Edit.IsApart, Delimiter.removal] at hapart
    unfold Edit.conflicts Edit.isInsertion Delimiter.removal
    rw [if_neg (by simp [delimiter.source_ne_nil]), if_neg (by simp [other.source_ne_nil])]
    simp
    omega
  rw [replace?, admits, hreplaceable, hfree, Bool.not_false, Bool.and_true]
  simp [record, without, Delimiter.removal]

end

/-! ## The delimiters that are left -/

theorem isSevered_source (token : DelimiterToken) (after : Text) :
    IsSevered token.source after := by
  apply IsSevered.of_getLast
  intro b hb
  left
  rw [token.source_eq_concat, List.getLast?_concat] at hb
  exact (Option.some.inj hb).symm

theorem isSevered_of_source (before : Text) (token : DelimiterToken) (behind : Text) :
    IsSevered before (token.source ++ behind) := by
  apply IsSevered.of_head
  intro b hb
  rw [DelimiterToken.source_eq] at hb
  cases hb
  decide

/-- The delimiters of a text are those taken out and those of the text that is left. -/
theorem tokensFrom_splice_removals {text : Text} {limit : Nat} {tail : List Edit}
    {added : List DelimiterToken}
    (htail : ∀ position ≤ limit,
      tokensFrom (.after (text.take position)) (Edit.splice text position tail) =
        tokensFrom (.after (text.take position)) (text.drop position) ++ added)
    {removed : List Delimiter} {position : Nat} (hposition : position ≤ limit)
    (hread : ∀ delimiter ∈ removed, delimiterAt? text delimiter.position = some delimiter)
    (hends : ∀ delimiter ∈ removed, endsInDelimiter (text.take delimiter.position) = false)
    (hfollow : Edit.Follow (removed.map Delimiter.removal))
    (hlower : ∀ delimiter ∈ removed, position ≤ delimiter.position)
    (hupper : ∀ delimiter ∈ removed, delimiter.stop ≤ limit) :
    (tokensFrom (.after (text.take position)) (text.drop position) ++ added).Perm
      (removed.map (·.toDelimiterToken) ++ tokensFrom (.after (text.take position))
        (Edit.splice text position (removed.map Delimiter.removal ++ tail))) := by
  induction removed generalizing position with
  | nil => rw [List.map_nil, List.map_nil, List.nil_append, List.nil_append, htail _ hposition]
  | cons delimiter rest ih =>
      obtain ⟨hdelimiter, hread⟩ := List.forall_mem_cons.mp hread
      obtain ⟨hunfinished, hends⟩ := List.forall_mem_cons.mp hends
      obtain ⟨hstart, -⟩ := List.forall_mem_cons.mp hlower
      obtain ⟨hstop, hupper⟩ := List.forall_mem_cons.mp hupper
      obtain ⟨hnext, hfollow⟩ := List.pairwise_cons.mp hfollow
      obtain ⟨-, hescaped, -⟩ := delimiterAt?_eq_some_iff.mp hdelimiter
      have hrest := ih hstop hread hends hfollow
        (fun other hother => hnext _ (List.mem_map_of_mem hother)) hupper
      have hwhole := text.slice_append_drop hstart
      rw [drop_of_delimiterAt? hdelimiter] at hwhole
      have hsplice : Edit.splice text position
            ((delimiter :: rest).map Delimiter.removal ++ tail) =
          text.slice position delimiter.position ++
            Edit.splice text delimiter.stop (rest.map Delimiter.removal ++ tail) := by
        rw [List.map_cons, List.cons_append, Edit.splice]
        simp [Delimiter.removal, Delimiter.stop]
      -- Both texts fall into the gap in front of the delimiter and what follows.
      rw [hsplice, ← hwhole, tokensFrom_slice_append hstart (isSevered_of_source _ _ _),
        tokensFrom_slice_append hstart (.of_endsInDelimiter hunfinished),
        tokensFrom_append (isSevered_source _ _),
        tokensFrom_source (isName_of_delimiterAt? hdelimiter) hescaped,
        pushAll_of_delimiterAt? hdelimiter,
        tokensFrom_context (Edit.splice _ _ _) (hescaped.trans (isEscapedAt_stop hdelimiter).symm)]
      simp only [List.map_cons, List.append_assoc, List.cons_append, List.nil_append]
      refine List.perm_middle.trans (.cons _ ?_)
      exact (hrest.append_left _).trans (List.perm_append_comm_assoc _ _ _)

/-! ## Inserting at the beginning of lines -/

theorem Draft.take_of_isLineStart {draft : Draft} {offset : Nat}
    (h : draft.isLineStart offset = true) :
    draft.text.take offset = [] ∨
      ∃ before, draft.text.take offset = before ++ [('\n' : UInt8)] := by
  simp only [isLineStart, Bool.and_eq_true, Bool.or_eq_true, decide_eq_true_eq, beq_iff_eq] at h
  obtain ⟨-, rfl | hfeed⟩ := h
  · exact .inl List.take_zero
  · cases offset with
    | zero => exact .inl List.take_zero
    | succ offset =>
        right
        rw [Nat.add_sub_cancel] at hfeed
        exact ⟨draft.text.take offset, by rw [List.take_add_one, hfeed]; rfl⟩

theorem isSevered_of_isLineStart {draft : Draft} {offset : Nat}
    (h : draft.isLineStart offset = true) :
    (LeftContext.after (draft.text.take offset)).escaped = false ∧
      ∀ behind, IsSevered (draft.text.take offset) behind := by
  rcases Draft.take_of_isLineStart h with hnil | ⟨before, hfeed⟩
  · rw [hnil]
    exact ⟨rfl, fun behind => IsSevered.of_nil⟩
  · rw [hfeed]
    constructor
    · rw [LeftContext.after_concat]
      rfl
    · intro behind
      apply IsSevered.of_getLast
      intro b hb
      right
      rw [List.getLast?_concat] at hb
      obtain rfl := Option.some.inj hb
      decide

theorem escaped_pushAll_of_not_mem {bytes : Text} (h : ('\\' : UInt8) ∉ bytes)
    {context : LeftContext} (hcontext : context.escaped = false) :
    (context.pushAll bytes).escaped = false := by
  induction bytes generalizing context with
  | nil => exact hcontext
  | cons b rest ih =>
      apply ih fun hmem => h (List.mem_cons_of_mem _ hmem)
      have hb : b ≠ ('\\' : UInt8) := fun heq => h (by simp [heq])
      simp [hb]

theorem tokensFrom_splice_marks {draft : Draft} {marker : Text} (hmarker : ('\\' : UInt8) ∉ marker)
    {edits : List Edit} (hmarks : ∀ edit ∈ edits, edit.length = 0 ∧ edit.replacement = marker ∧
      draft.isLineStart edit.offset = true)
    (hfollow : Edit.Follow edits) {position : Nat}
    (hlower : ∀ edit ∈ edits, position ≤ edit.offset) :
    tokensFrom (.after (draft.text.take position)) (Edit.splice draft.text position edits) =
      tokensFrom (.after (draft.text.take position)) (draft.text.drop position) := by
  induction edits generalizing position with
  | nil => rfl
  | cons edit rest ih =>
      obtain ⟨⟨hlength, hreplacement, hline⟩, hmarks⟩ := List.forall_mem_cons.mp hmarks
      obtain ⟨hnext, hfollow⟩ := List.pairwise_cons.mp hfollow
      obtain ⟨hposition, -⟩ := List.forall_mem_cons.mp hlower
      obtain ⟨hescaped, hsevered⟩ := isSevered_of_isLineStart hline
      have hrest := ih hmarks hfollow hnext
      rw [hlength, Nat.add_zero] at hrest
      rw [Edit.splice, hreplacement, hlength, Nat.add_zero,
        ← draft.text.slice_append_drop hposition, List.append_assoc,
        tokensFrom_slice_append hposition (hsevered _),
        tokensFrom_slice_append hposition (hsevered _),
        tokensFrom_append (IsSevered.of_not_mem hmarker), tokensFrom_eq_nil hmarker, ← hrest,
        tokensFrom_context _ ((escaped_pushAll_of_not_mem hmarker hescaped).trans hescaped.symm)]
      rfl

end LatexIntegrity
