import LatexIntegrity.Proofs.Submission.BlankedConstructs

/-!
# Comments of a text whose comments are blanked

Blanking keeps the length, the line feeds and all bytes outside comments.  It need not leave a
text without comments: a command or a definition that a brace or a bracket in a comment ended
can go on behind the blanks, into a region of the text, and set free a percent sign that was
shielded there.  In no other way does a comment of the copy come about.
-/

namespace LatexIntegrity.Submission

variable {text : Text} {offset : Nat}

/-- An offset behind the first byte of a shielded span that is no comment. -/
def IsInside (text : Text) (offset : Nat) : Prop :=
  ∃ span ∈ segment text, span.isShielded = true ∧ span.kind ≠ .comment ∧
    span.start < offset ∧ offset < span.stop

theorem exists_span_of_not_isInside {found : RegionKind × Construct}
    (hvisible : IsVisibleAt text offset) (hinside : ¬IsInside text offset)
    (h : constructAt? text offset = some found) :
    ∃ span ∈ segment text, span.isShielded = true ∧ span.start = offset ∧
      span.stop = offset + found.2.length ∧ span.kind = found.1 ∧ span.kind ≠ .comment := by
  obtain ⟨span, hspan, hcontains, hshielded, hsame⟩ := exists_span_of_constructAt? h
  have hkind := hvisible span hspan hcontains
  rw [Span.contains_iff] at hcontains
  have hstart : span.start = offset := by
    by_contra hne
    exact hinside ⟨span, hspan, hshielded, hkind, by omega, hcontains.2⟩
  exact ⟨span, hspan, hshielded, hstart, (hsame hstart).2, (hsame hstart).1, hkind⟩

theorem isInside_of_comment {span : Span} (hspan : span ∈ segment (blankComments text))
    (hkind : span.kind = .comment) : IsInside text span.start := by
  have hfound := constructAt?_start hspan (by rw [Span.isShielded, hkind]; rfl)
  rw [hkind] at hfound
  obtain ⟨construct, htext⟩ :=
    exists_constructAt?_of_blankComments hfound (by decide) (by decide)
  by_contra hinside
  obtain ⟨other, -, -, -, -, hcomment, hnot⟩ :=
    exists_span_of_not_isInside (visible_of_constructAt? hfound).1 hinside htext
  exact hnot hcomment

theorem exists_reaching {span : Span} (hspan : span ∈ segment (blankComments text))
    (hinside : IsInside text span.start) :
    ∃ reaching ∈ segment (blankComments text), reaching.isShielded = true ∧
      reaching.stop ≤ span.start ∧ ¬IsInside text reaching.start ∧
        IsInside text reaching.stop := by
  have htiles := tiles_segment (blankComments text)
  induction hn : span.start using Nat.strongRecOn generalizing span with
  | ind n ih =>
      subst hn
      obtain ⟨shield, hshield, hshielded, hkind, hstart, hstop⟩ := hinside
      obtain ⟨construct, hconstruct, hle, -⟩ :=
        constructAt?_blankComments hshield hshielded hkind
      obtain ⟨reaching, hreaching, hcontains, hshielded', hsame⟩ :=
        exists_span_of_constructAt? hconstruct
      rw [Span.contains_iff] at hcontains
      have hne : reaching ≠ span := by
        rintro rfl
        omega
      have hapart := htiles.apart hreaching hspan hne
      have hbounds := htiles.bounds hspan
      -- A span that began with the shield would go over the start of the span.
      have hbefore : reaching.start < shield.start := by
        refine Nat.lt_of_le_of_ne hcontains.1 fun heq => ?_
        have hend := (hsame heq).2
        omega
      have hend : IsInside text reaching.stop :=
        ⟨shield, hshield, hshielded, hkind, hcontains.2, by omega⟩
      by_cases hdeeper : IsInside text reaching.start
      · obtain ⟨other, hother, hotherShielded, hotherStop, hrest⟩ :=
          ih reaching.start (by omega) hreaching hdeeper rfl
        exact ⟨other, hother, hotherShielded, by omega, hrest⟩
      · exact ⟨reaching, hreaching, hshielded', by omega, hdeeper, hend⟩

theorem exists_comment_between {start place stop : Nat} (hstart : IsVisibleAt text start)
    (hstop : IsVisibleAt text stop) (hbegin : start < place) (hend : place ≤ stop)
    (hhidden : ¬IsVisibleAt text place) :
    ∃ comment ∈ segment text, comment.kind = .comment ∧ comment.contains place = true ∧
      start < comment.start ∧ comment.stop ≤ stop := by
  simp only [IsVisibleAt, not_forall, not_not] at hhidden
  obtain ⟨comment, hcomment, hcontains, hkind⟩ := hhidden
  have houtside : ∀ {offset}, IsVisibleAt text offset →
      offset < comment.start ∨ comment.stop ≤ offset := by
    intro offset hvisible
    by_contra hnot
    refine hvisible comment hcomment ?_ hkind
    rw [Span.contains_iff]
    omega
  have hfirst := houtside hstart
  have hlast := houtside hstop
  have hplace := hcontains
  rw [Span.contains_iff] at hplace
  exact ⟨comment, hcomment, hkind, hcontains, by omega, by omega⟩

section Reaching

variable {reaching : Span} (hreaching : reaching ∈ segment (blankComments text))
  (hshielded : reaching.isShielded = true) (hstart : ¬IsInside text reaching.start)
  (hstop : IsInside text reaching.stop)

include hreaching hshielded hstart hstop

theorem length_lt_of_reaching {construct : Construct}
    (htext : constructAt? text reaching.start = some (reaching.kind, construct)) :
    reaching.kind = .definition ∧ construct.length < reaching.stop - reaching.start := by
  have hfound := constructAt?_start hreaching hshielded
  obtain ⟨span, hspan, hspanShielded, hspanStart, hspanStop, hspanKind, hcomment⟩ :=
    exists_span_of_not_isInside (visible_of_constructAt? hfound).1 hstart htext
  obtain ⟨again, hagain, hle, hexact⟩ := constructAt?_blankComments hspan hspanShielded hcomment
  rw [hspanStart, hfound] at hagain
  obtain ⟨-, rfl⟩ := Prod.mk.inj (Option.some.inj hagain)
  simp only at hle hexact hspanStop hspanKind
  -- The two spans do not end at the same place, since that place is inside another span.
  have hend : span.stop ≠ reaching.stop := by
    intro hsame
    obtain ⟨shield, hshield, -, -, hbegin, hgoesOn⟩ := hstop
    have hne : span ≠ shield := by
      rintro rfl
      omega
    have hapart := (tiles_segment text).apart hspan hshield hne
    have hbounds := (tiles_segment text).bounds hspan
    omega
  have hbounds := (tiles_segment (blankComments text)).bounds hreaching
  refine ⟨?_, by omega⟩
  by_contra hdefinition
  have hlength := hexact (hspanKind ▸ hdefinition)
  omega

theorem kind_of_reaching : reaching.kind = .definition ∨ reaching.kind = .command := by
  by_contra hnot
  rw [not_or] at hnot
  obtain ⟨construct, htext⟩ := exists_constructAt?_of_blankComments
    (constructAt?_start hreaching hshielded) hnot.1 hnot.2
  exact hnot.1 (length_lt_of_reaching hreaching hshielded hstart hstop htext).1

theorem exists_comment_of_reaching :
    ∃ comment ∈ segment text, comment.kind = .comment ∧ reaching.start < comment.start ∧
      comment.stop < reaching.stop ∧
        ∃ offset b, comment.contains offset = true ∧ text[offset]? = some b ∧
          isGroupByte b = true := by
  have hkind := kind_of_reaching hreaching hshielded hstart hstop
  have hbounds := (tiles_segment (blankComments text)).bounds hreaching
  have hfound := constructAt?_start hreaching hshielded
  obtain ⟨last, hlast, hspace, -⟩ := exists_last_of_constructAt? hfound (by
    intro hnot
    rw [hnot] at hkind
    simp at hkind)
  have hfirstVisible := (visible_of_constructAt? hfound).1
  have hlastVisible := (visible_of_getElem?_blankComments hlast hspace).1
  by_contra hnone
  have hharmless : ∀ place b, reaching.start < place →
      place < reaching.start + (reaching.stop - reaching.start) → text[place]? = some b →
        isGroupByte b = true → IsVisibleAt text place := by
    intro place b hbegin hend hb hgroup
    by_contra hhidden
    obtain ⟨comment, hcomment, hcommentKind, hcontains, hafter, hbefore⟩ :=
      exists_comment_between hfirstVisible hlastVisible hbegin (by simp only; omega) hhidden
    simp only at hbefore
    exact hnone ⟨comment, hcomment, hcommentKind, hafter, by omega, place, b, hcontains, hb, hgroup⟩
  obtain ⟨construct, htext, hle⟩ := constructAt?_of_blankComments hfound hkind hharmless
  have hshorter := (length_lt_of_reaching hreaching hshielded hstart hstop htext).2
  simp only at hle
  omega

end Reaching

theorem blankComments_eq_self_iff :
    blankComments text = text ↔ ∀ span ∈ segment text, span.kind ≠ .comment := by
  constructor
  · intro hsame span hspan hkind
    have hbounds := (tiles_segment text).bounds hspan
    have hblank := getElem?_blankComments hspan
      (Span.contains_iff.mpr ⟨Nat.le_refl _, hbounds.2.1⟩)
    rw [hsame, hkind, beq_self_eq_true, if_pos rfl] at hblank
    obtain ⟨rest, hrest⟩ := (isCommentLine_of_mem_segment hspan hkind).1.2
    rw [← List.head?_drop, ← hrest, show Text.ofString "%" = [('%' : UInt8)] by decide] at hblank
    exact absurd (Option.some.inj hblank) (by decide)
  · intro hnone
    refine List.ext_getElem? fun offset => ?_
    have hvisible : IsVisibleAt text offset := fun span hspan _ => hnone span hspan
    exact hvisible.getElem?

/--
The copy with blanked comments is as long as the text, has spaces in place of the bytes of the
comments and no other byte changed, and has every line feed where it was.  Blanking the copy
again changes it exactly if it has a comment.  The percent sign of such a comment was inside a
shielded span of the text.  In front of it a definition or a command of the copy goes over a
comment of the text that holds a brace or a closing bracket, and ends inside a shielded span of
the text.
-/
theorem segment_blankComments (text : Text) :
    (blankComments text).length = text.length ∧
      (∀ span ∈ segment text, ∀ offset : Nat, span.contains offset = true →
        (blankComments text)[offset]? =
          if span.kind = .comment then some (' ' : UInt8) else text[offset]?) ∧
      (∀ offset : Nat, (blankComments text)[offset]? = some ('\n' : UInt8) ↔
        text[offset]? = some ('\n' : UInt8)) ∧
      (blankComments (blankComments text) = blankComments text ↔
        ∀ span ∈ segment (blankComments text), span.kind ≠ .comment) ∧
      ∀ span ∈ segment (blankComments text), span.kind = .comment →
        IsInside text span.start ∧
          ∃ reaching ∈ segment (blankComments text),
            (reaching.kind = .definition ∨ reaching.kind = .command) ∧
              reaching.stop ≤ span.start ∧ IsInside text reaching.stop ∧
                ∃ comment ∈ segment text, comment.kind = .comment ∧
                  reaching.start < comment.start ∧ comment.stop < reaching.stop ∧
                    ∃ offset b, comment.contains offset = true ∧ text[offset]? = some b ∧
                      isGroupByte b = true := by
  refine ⟨length_blankComments text, ?_, fun _ => getElem?_blankComments_eq_feed_iff,
    blankComments_eq_self_iff, ?_⟩
  · intro span hspan offset hoffset
    simpa using getElem?_blankComments hspan hoffset
  · intro span hspan hkind
    have hinside := isInside_of_comment hspan hkind
    obtain ⟨reaching, hreaching, hshielded, hstop, hstart, hend⟩ := exists_reaching hspan hinside
    exact ⟨hinside, reaching, hreaching, kind_of_reaching hreaching hshielded hstart hend, hstop,
      hend, exists_comment_of_reaching hreaching hshielded hstart hend⟩

/--
The brace in the comment ended the first argument, behind which no second one follows.  Behind
the blanks both are there, and the second one ends in the mathematics.
-/
theorem segment_blankComments_exposed :
    let text : Text := "\\href\x7b%\x7d\n$\x7d\x7ba\x7d%$ b"
    (⟨14, 18, .comment, []⟩ : Span) ∈ segment (blankComments text) ∧
      blankComments (blankComments text) ≠ blankComments text := by
  intro text
  have hcomment : (⟨14, 18, .comment, []⟩ : Span) ∈ segment (blankComments text) := by
    decide +kernel
  refine ⟨hcomment, fun hsame => ?_⟩
  exact (segment_blankComments text).2.2.2.1.mp hsame _ hcomment rfl

end LatexIntegrity.Submission
