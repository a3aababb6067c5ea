import LatexIntegrity.Proofs.Region.Offsets
import LatexIntegrity.Proofs.Rewriting.Blanks
import LatexIntegrity.Proofs.Submission.Citations

/-!
# Constructs of a text whose comments are blanked

A construct that the segmentation finds in a text is found in the copy with blanked comments.
Comments and mathematics of the copy have been there in the text.  So have definitions and
commands, but those that go over a brace or a closing bracket of a comment.
-/

namespace LatexIntegrity.Submission

variable {text : Text} {offset : Nat} {kind : RegionKind} {construct : Construct}

/-! ## Bytes of the copy -/

theorem visible_of_getElem?_blankComments {b : UInt8}
    (h : (blankComments text)[offset]? = some b) (hspace : b ≠ ' ') :
    IsVisibleAt text offset ∧ text[offset]? = some b := by
  have hlt : offset < text.length := by
    rw [← length_blankComments]
    exact (List.getElem?_eq_some_iff.mp h).1
  obtain ⟨span, hspan, hcontains⟩ := (tiles_segment text).exists_contains (Nat.zero_le _) hlt
  rw [getElem?_blankComments hspan hcontains] at h
  split at h
  · exact absurd (Option.some.inj h).symm hspace
  · next hkind => exact ⟨isVisibleAt_of_contains hspan hcontains (by simpa using hkind), h⟩

theorem prefix_drop_of_blankComments {bytes : Text} (hspace : (' ' : UInt8) ∉ bytes)
    (h : bytes <+: (blankComments text).drop offset) : bytes <+: text.drop offset := by
  rw [List.prefix_iff_getElem?] at h ⊢
  intro index hindex
  have hbyte := h index hindex
  rw [List.getElem?_drop] at hbyte ⊢
  exact (visible_of_getElem?_blankComments hbyte
    (ne_of_mem_of_not_mem (List.getElem_mem hindex) hspace)).2

theorem isVisibleAt_of_feed (h : text[offset]? = some ('\n' : UInt8)) :
    IsVisibleAt text offset := by
  intro span hspan hcontains hkind
  have hleast := (isCommentLine_of_mem_segment hspan hkind).2.2
  rw [Span.contains_iff] at hcontains
  have hstop := hleast ⟨hcontains.1, .inl h⟩
  omega

theorem getElem?_blankComments_eq_feed_iff :
    (blankComments text)[offset]? = some ('\n' : UInt8) ↔ text[offset]? = some ('\n' : UInt8) := by
  constructor
  · exact fun h => (visible_of_getElem?_blankComments h (by decide)).2
  · exact fun h => (isVisibleAt_of_feed h).getElem?.trans h

theorem IsVisibleAt.succ_of_escaped (h : IsVisibleAt text offset)
    (hescaped : isEscapedAt text (offset + 1) = true) : IsVisibleAt text (offset + 1) := by
  intro span hspan hcontains hkind
  have hbegin := (isCommentLine_of_mem_segment hspan hkind).1.1
  rw [Span.contains_iff] at hcontains
  by_cases hstart : span.start = offset + 1
  · rw [hstart, hescaped] at hbegin
    cases hbegin
  · have hbefore : span.contains offset = true := by
      rw [Span.contains_iff]
      omega
    exact h span hspan hbefore hkind

theorem dollar_blankComments (h : IsVisibleAt text offset)
    (hfeed : text[offset]? ≠ some ('\n' : UInt8)) (hlt : offset < text.length) :
    (LeftContext.after ((blankComments text).take offset)).dollar =
      (LeftContext.after (text.take offset)).dollar := by
  rw [Bool.eq_iff_iff, dollar_after_take (by rw [length_blankComments]; omega),
    dollar_after_take (by omega)]
  refine exists_congr fun before => and_congr_right ?_
  rintro rfl
  rw [(h.pred hfeed hlt).getElem?]

theorem after_take_blankComments (h : IsVisibleAt text offset)
    (hfeed : text[offset]? ≠ some ('\n' : UInt8)) (hlt : offset < text.length) :
    LeftContext.after ((blankComments text).take offset) = .after (text.take offset) :=
  LeftContext.eq_mk (isEscapedAt_blankComments h hfeed hlt) (dollar_blankComments h hfeed hlt)

theorem visible_of_constructAt?
    (h : constructAt? (blankComments text) offset = some (kind, construct)) :
    IsVisibleAt text offset ∧ offset < text.length ∧ text[offset]? ≠ some ('\n' : UInt8) ∧
      LeftContext.after ((blankComments text).take offset) = .after (text.take offset) := by
  have hbounds := (construct?_spec h).2
  rw [List.length_drop, length_blankComments] at hbounds
  have hlt : offset < text.length := by omega
  obtain ⟨first, hbyte⟩ : ∃ first, (blankComments text)[offset]? = some first :=
    ⟨_, List.getElem?_eq_getElem (by rw [length_blankComments]; exact hlt)⟩
  have hhead : ∀ b : UInt8, b ≠ '%' → b ≠ '$' → b ≠ '\\' →
      (blankComments text)[offset]? ≠ some b := by
    intro b hpercent hdollar hbackslash hb
    obtain ⟨hlt', rfl⟩ := List.getElem?_eq_some_iff.mp hb
    rw [constructAt?, List.drop_eq_getElem_cons hlt',
      construct?_eq_none_of_head hpercent hdollar hbackslash] at h
    cases h
  obtain ⟨hvisible, htext⟩ := visible_of_getElem?_blankComments hbyte fun hspace =>
    hhead ' ' (by decide) (by decide) (by decide) (hspace ▸ hbyte)
  have hfeed : text[offset]? ≠ some ('\n' : UInt8) := by
    rw [← hvisible.getElem?]
    exact hhead '\n' (by decide) (by decide) (by decide)
  exact ⟨hvisible, hlt, hfeed, after_take_blankComments hvisible hfeed hlt⟩

/-- A token that blanking cannot bring, and whose first byte no comment ends with. -/
def IsSolid (token : Text) : Prop :=
  token ≠ [] ∧ (' ' : UInt8) ∉ token ∧ ('\n' : UInt8) ∉ token

instance (token : Text) : Decidable (IsSolid token) :=
  inferInstanceAs (Decidable (_ ∧ _ ∧ _))

theorem isSolid_source {token : DelimiterToken} (hname : Environment.IsName token.name) :
    IsSolid token.source := by
  have hbyte : ∀ b : UInt8, b ≠ '\\' → DelimiterToken.isInnerByte b = false →
      b ∉ token.source := by
    intro b hbackslash hinner hmem
    rw [DelimiterToken.source_eq] at hmem
    rcases List.mem_cons.mp hmem with hb | hb
    · exact hbackslash hb
    · refine DelimiterToken.not_mem_tail_source hname hinner ?_
      rwa [DelimiterToken.source_eq]
  exact ⟨token.source_ne_nil, hbyte _ (by decide) (by decide), hbyte _ (by decide) (by decide)⟩

theorem standsAt_of_blankComments {token : Text} (htoken : IsSolid token)
    (h : StandsAt (blankComments text) token offset) : StandsAt text token offset := by
  obtain ⟨hne, hspace, hfeed⟩ := htoken
  obtain ⟨hescaped, hstarts⟩ := h
  have hstarts' := prefix_drop_of_blankComments hspace hstarts
  obtain ⟨first, rest, rfl⟩ := List.exists_cons_of_ne_nil hne
  obtain ⟨behind, hbehind⟩ := hstarts
  obtain ⟨behind', hbehind'⟩ := hstarts'
  have hfirst : (blankComments text)[offset]? = some first := by
    rw [← List.head?_drop, ← hbehind]
    rfl
  obtain ⟨hvisible, hbyte⟩ := visible_of_getElem?_blankComments hfirst
    (ne_of_mem_of_not_mem List.mem_cons_self hspace)
  refine ⟨?_, ⟨behind', hbehind'⟩⟩
  rw [← hescaped]
  refine (isEscapedAt_blankComments hvisible ?_ (List.getElem?_eq_some_iff.mp hbyte).1).symm
  rw [hbyte]
  exact fun heq => hfeed (by simp [← Option.some.inj heq])

theorem isLoneDollarAt_of_blankComments (h : IsLoneDollarAt (blankComments text) offset) :
    IsLoneDollarAt text offset := by
  obtain ⟨hstands, hnext, hbefore⟩ := h
  have hstands' := standsAt_of_blankComments (by decide) hstands
  obtain ⟨behind, hbehind⟩ := hstands.2
  have hbyte : (blankComments text)[offset]? = some ('$' : UInt8) := by
    rw [← List.head?_drop, ← hbehind]
    rfl
  obtain ⟨hvisible, hdollar⟩ := visible_of_getElem?_blankComments hbyte (by decide)
  refine ⟨hstands', ?_, ?_⟩
  · intro hnext'
    have hsucc := hvisible.succ (by rw [hnext']; decide)
    exact hnext (hsucc.getElem?.trans hnext')
  · rintro before rfl hbefore'
    have hpred := hvisible.pred (by rw [hdollar]; decide) (List.getElem?_eq_some_iff.mp hdollar).1
    exact hbefore before rfl (hpred.getElem?.trans hbefore')

/-! ## Constructs that the copy keeps -/

theorem drop_start_blankComments {span : Span} (hspan : span ∈ segment text)
    (hkind : span.kind ≠ .comment) :
    (blankComments text).drop span.start =
      text.slice span.start span.stop ++ (blankComments text).drop span.stop := by
  have hbounds := (tiles_segment text).bounds hspan
  have hbody : ((blankComments text).drop span.start).take (span.stop - span.start) =
      text.slice span.start span.stop := by
    refine List.ext_getElem? fun index => ?_
    rw [Text.slice, List.getElem?_take, List.getElem?_take]
    split
    · next hindex =>
        have hcontains : span.contains (span.start + index) = true := by
          rw [Span.contains_iff]
          omega
        rw [List.getElem?_drop, List.getElem?_drop,
          (isVisibleAt_of_contains hspan hcontains hkind).getElem?]
    · rfl
  have hsplit := List.take_append_drop (span.stop - span.start)
    ((blankComments text).drop span.start)
  rwa [hbody, List.drop_drop, Nat.add_sub_cancel' (Nat.le_of_lt hbounds.2.1), eq_comm] at hsplit

/--
Where a shielded span that is no comment begins, the copy has a construct of its kind.  It
reaches as far as the span; only a definition may reach farther.
-/
theorem constructAt?_blankComments {span : Span} (hspan : span ∈ segment text)
    (hshielded : span.isShielded = true) (hkind : span.kind ≠ .comment) :
    ∃ construct, constructAt? (blankComments text) span.start = some (span.kind, construct) ∧
      span.stop - span.start ≤ construct.length ∧
        (span.kind ≠ .definition → construct.length = span.stop - span.start) := by
  have hbounds := (tiles_segment text).bounds hspan
  have hfound := constructAt?_start hspan hshielded
  have hlength : (text.slice span.start span.stop).length = span.stop - span.start := by
    rw [Text.slice, List.length_take, List.length_drop]
    omega
  have hsplit : text.drop span.start = text.slice span.start span.stop ++ text.drop span.stop := by
    have htake := List.take_append_drop (span.stop - span.start) (text.drop span.start)
    rw [List.drop_drop, Nat.add_sub_cancel' (Nat.le_of_lt hbounds.2.1)] at htake
    exact htake.symm
  have hvisible : IsVisibleAt text span.start :=
    isVisibleAt_of_contains hspan (Span.contains_iff.mpr ⟨Nat.le_refl _, hbounds.2.1⟩) hkind
  have hfeed : text[span.start]? ≠ some ('\n' : UInt8) := by
    intro hfeed
    obtain ⟨hlt, hbyte⟩ := List.getElem?_eq_some_iff.mp hfeed
    rw [constructAt?, List.drop_eq_getElem_cons hlt, hbyte,
      construct?_eq_none_of_head (by decide) (by decide) (by decide)] at hfound
    cases hfound
  rw [constructAt?, after_take_blankComments hvisible hfeed (by omega),
    drop_start_blankComments hspan hkind]
  rw [constructAt?, hsplit, ← hlength] at hfound
  rw [← hlength]
  -- Only a definition asks for more than its own bytes, and may reach further in the copy.
  by_cases hdefinition : span.kind = .definition
  · obtain ⟨recognize, hentry, hrecognize⟩ := construct?_eq_some_iff.mp hfound
    rw [hdefinition] at hentry hfound ⊢
    suffices hlonger : ∃ longer, recognize (.after (text.take span.start))
        (text.slice span.start span.stop ++ (blankComments text).drop span.stop) = some longer ∧
          (text.slice span.start span.stop).length ≤ longer.length by
      obtain ⟨longer, hlonger, hle⟩ := hlonger
      exact ⟨longer, construct?_eq_some_iff.mpr ⟨recognize, hentry, hlonger⟩, hle,
        fun hnot => absurd rfl hnot⟩
    rcases Recognizer.isSelfContained_of_mem_table hentry with hsame | hsame | hsame | hself
    · cases hsame
    · cases hsame
      have halone := (Recognizer.newCommand_spec hrecognize).2.2 []
        (by rw [Recognizer.definitionArguments?])
      rw [List.take_left, List.append_nil] at halone
      exact Recognizer.le_newCommand_append halone _
    · cases hsame
    · have hagain := hself.again hrecognize ((blankComments text).drop span.stop)
      rw [List.take_left] at hagain
      exact ⟨_, hagain, Nat.le_refl _⟩
  · refine ⟨_, construct?_again_of_kind hfound (fun hcomment => absurd hcomment hkind) ?_
      (fun hnot => absurd hnot hdefinition), Nat.le_refl _, fun _ => rfl⟩
    rintro - - hnext hnext'
    rw [List.head?_drop] at hnext hnext'
    exact hnext (visible_of_getElem?_blankComments hnext' (by decide)).2

/-! ## Constructs that the copy has -/

theorem exists_constructAt?_of_blankComments
    (h : constructAt? (blankComments text) offset = some (kind, construct))
    (hdefinition : kind ≠ .definition) (hcommand : kind ≠ .command) :
    ∃ construct, constructAt? text offset = some (kind, construct) := by
  obtain ⟨recognize, hentry, hfound⟩ := constructAt?_eq_some_iff.mp h
  have hfenced : ∀ {opener closer : Text} {construct : Construct}, IsSolid opener →
      IsSolid closer →
        (Recognizer.fenced opener closer).foundAt? (blankComments text) offset = some construct →
          ∃ construct, (Recognizer.fenced opener closer).foundAt? text offset =
            some construct := by
    intro opener closer construct hopener hcloser hfound
    obtain ⟨hstands, place, hplace, -⟩ := Recognizer.isFenced_of_fenced hfound
    exact Recognizer.exists_fenced hcloser.1 (standsAt_of_blankComments hopener hstands)
      hplace.1.1 (standsAt_of_blankComments hcloser hplace.1.2)
  suffices hsome : ∃ construct, recognize.foundAt? text offset = some construct by
    obtain ⟨construct, hsome⟩ := hsome
    exact ⟨construct, constructAt?_eq_some_iff.mpr ⟨recognize, hentry, hsome⟩⟩
  have hentry' := hentry
  simp only [Recognizer.table, List.mem_cons, Prod.mk.injEq, List.not_mem_nil, or_false] at hentry'
  rcases hentry' with ⟨-, rfl⟩ | ⟨rfl, -⟩ | ⟨rfl, -⟩ | ⟨-, rfl⟩ | ⟨-, rfl⟩ | ⟨-, rfl⟩ | ⟨-, rfl⟩ |
    ⟨-, rfl⟩ | ⟨rfl, -⟩
  · obtain ⟨hescaped, rest, hrest, -⟩ := Recognizer.comment_eq_some_iff.mp hfound
    have hstands : StandsAt (blankComments text) "%" offset :=
      ⟨hescaped, by rw [hrest]; exact List.prefix_append [('%' : UInt8)] rest⟩
    obtain ⟨hescaped', behind, hbehind⟩ :=
      standsAt_of_blankComments (by decide) hstands
    exact ⟨_, Recognizer.comment_eq_some_iff.mpr ⟨hescaped', behind, hbehind.symm, rfl⟩⟩
  · exact absurd rfl hdefinition
  · exact absurd rfl hdefinition
  · rw [Recognizer.displayMath_eq_fenced] at hfound ⊢
    exact hfenced (by decide) (by decide) hfound
  · obtain ⟨hopener, place, hplace, -⟩ := Recognizer.isDollarPair_of_inlineMath hfound
    exact Recognizer.exists_inlineMath (isLoneDollarAt_of_blankComments hopener) hplace.1.1
      (isLoneDollarAt_of_blankComments hplace.1.2)
  · exact hfenced (by decide) (by decide) hfound
  · exact hfenced (by decide) (by decide) hfound
  · obtain ⟨hname, hfound⟩ := Recognizer.environment_eq_some_iff.mp hfound
    have hvalid := Recognizer.isName_of_isShieldedEnvironment hname
    obtain ⟨⟨length, name⟩, hfound⟩ :=
      hfenced (isSolid_source hvalid) (isSolid_source hvalid) hfound
    obtain ⟨-, -, distance, -, hconstruct⟩ := Recognizer.fenced_eq_some_iff.mp hfound
    obtain rfl : name = [] := (Construct.mk.inj hconstruct).2
    exact ⟨_, Recognizer.environment_of_fenced hname hfound⟩
  · exact absurd rfl hcommand

theorem isEscapedAt_controlWord {start : Nat} (hword : controlWord (text.drop start) ≠ []) :
    isEscapedAt text (start + (1 + (controlWord (text.drop start)).length)) = false := by
  have htake := Recognizer.take_controlWord hword 0
  rw [List.take_zero, List.append_nil, Nat.add_zero] at htake
  rw [isEscapedAt_add, htake]
  have hlast := isLetter_of_mem_controlWord (List.getLast_mem hword)
  rw [← List.dropLast_append_getLast hword, ← List.cons_append, LeftContext.pushAll_append,
    LeftContext.pushAll_cons, LeftContext.pushAll_nil, LeftContext.push_escaped,
    Bool.and_eq_false_iff]
  left
  rw [beq_eq_false_iff_ne]
  intro hbackslash
  rw [hbackslash] at hlast
  revert hlast
  decide

theorem controlWord_drop_blankComments
    (hword : controlWord ((blankComments text).drop offset) ≠ []) :
    controlWord (text.drop offset) = controlWord ((blankComments text).drop offset) := by
  have hhead := head?_eq_of_controlWord_ne_nil hword
  have hsplit := eq_cons_controlWord_append hhead
  have hbehind := fun b => @isLetter_head_afterControlWord _ b hhead
  rw [afterControlWord, List.drop_drop, List.head?_drop] at hbehind
  generalize hcontrol : controlWord ((blankComments text).drop offset) = word at *
  have hletters : ∀ b ∈ word, Ascii.isLetter b = true := by
    intro b hb
    rw [← hcontrol] at hb
    exact isLetter_of_mem_controlWord hb
  have hspace : (' ' : UInt8) ∉ ('\\' : UInt8) :: word := by
    intro hmem
    rcases List.mem_cons.mp hmem with hb | hb
    · revert hb
      decide
    · have hletter := hletters _ hb
      revert hletter
      decide
  obtain ⟨rest, hrest⟩ := prefix_drop_of_blankComments hspace
    ⟨_, by rw [List.cons_append]; exact hsplit.symm⟩
  rw [← hrest, List.cons_append]
  refine controlWord_cons_append hletters fun b hb => ?_
  have hbyte : text[offset + (1 + word.length)]? = some b := by
    rw [← hb, ← List.head?_drop, ← List.drop_drop, ← hrest, Nat.add_comm 1, List.cons_append,
      List.drop_succ_cons, List.drop_left]
  -- The last letter is in no comment, so that the byte behind it is not either or begins one.
  by_cases hpercent : b = ('%' : UInt8)
  · rw [hpercent]
    decide
  · have hlast : (blankComments text)[offset + word.length]? = some (word.getLast hword) := by
      obtain ⟨shorter, hshorter⟩ := Nat.exists_eq_succ_of_ne_zero
        (Nat.ne_of_gt (List.length_pos_iff.mpr hword))
      rw [← List.getElem?_drop, hsplit, ← List.cons_append,
        List.getElem?_append_left (by simp), List.getLast_eq_getElem]
      simp [hshorter]
    have hvisible := (visible_of_getElem?_blankComments hlast fun heq =>
      hspace (List.mem_cons_of_mem _ (heq ▸ List.getLast_mem hword))).1
    have hsucc := hvisible.succ (by
      rw [Nat.add_assoc, Nat.add_comm word.length, hbyte]
      simpa using hpercent)
    rw [Nat.add_assoc, Nat.add_comm word.length] at hsucc
    exact hbehind b (hsucc.getElem?.trans hbyte)

theorem exists_bytes (hlt : offset < text.length) :
    ∃ b c, text[offset]? = some b ∧ text.drop offset = b :: text.drop (offset + 1) ∧
      (blankComments text).drop offset = c :: (blankComments text).drop (offset + 1) ∧
        (IsVisibleAt text offset ∧ c = b ∨ ¬IsVisibleAt text offset ∧ c = ' ') := by
  have hlt' : offset < (blankComments text).length := by rwa [length_blankComments]
  have hb := List.getElem?_eq_getElem hlt
  have hc := List.getElem?_eq_getElem hlt'
  refine ⟨_, _, hb, List.drop_eq_getElem_cons hlt, List.drop_eq_getElem_cons hlt', ?_⟩
  by_cases hvisible : IsVisibleAt text offset
  · exact .inl ⟨hvisible, Option.some.inj (hc.symm.trans (hvisible.getElem?.trans hb))⟩
  · refine .inr ⟨hvisible, ?_⟩
    by_contra hspace
    exact hvisible (visible_of_getElem?_blankComments hc hspace).1

theorem isBlanked_of_byte {length : Nat} {b : UInt8} (hb : text[offset]? = some b)
    (hbackslash : b ≠ '\\') (hharmless : isGroupByte b = true → IsVisibleAt text offset)
    (h : IsBlanked length (text.drop (offset + 1)) ((blankComments text).drop (offset + 1))) :
    IsBlanked (length + 1) (text.drop offset) ((blankComments text).drop offset) := by
  obtain ⟨b', c, hb', htext, hblank, hbyte⟩ := exists_bytes (List.getElem?_eq_some_iff.mp hb).1
  obtain rfl : b' = b := Option.some.inj (hb'.symm.trans hb)
  rw [htext, hblank]
  rcases hbyte with ⟨-, rfl⟩ | ⟨hhidden, rfl⟩
  · exact .byte hbackslash h
  · exact .blank hbackslash (by simpa using mt hharmless hhidden) h

theorem isBlanked_of_escaped {length : Nat} {b : UInt8}
    (hbackslash : text[offset]? = some ('\\' : UInt8)) (hb : text[offset + 1]? = some b)
    (hescaped : isEscapedAt text (offset + 1) = true)
    (hharmless : isGroupByte b = true → IsVisibleAt text (offset + 1))
    (h : IsBlanked length (text.drop (offset + 2)) ((blankComments text).drop (offset + 2))) :
    IsBlanked (length + 2) (text.drop offset) ((blankComments text).drop offset) := by
  obtain ⟨b', c, hb', htext, hblank, hbyte⟩ :=
    exists_bytes (List.getElem?_eq_some_iff.mp hbackslash).1
  obtain rfl : b' = '\\' := Option.some.inj (hb'.symm.trans hbackslash)
  obtain ⟨d, e, hd, htext', hblank', hbyte'⟩ := exists_bytes (List.getElem?_eq_some_iff.mp hb).1
  obtain rfl : d = b := Option.some.inj (hd.symm.trans hb)
  rw [htext, hblank, htext', hblank']
  rcases hbyte with ⟨hvisible, rfl⟩ | ⟨hhidden, rfl⟩
  · rcases hbyte' with ⟨-, rfl⟩ | ⟨hhidden', -⟩
    · exact .literal e h
    · exact absurd (hvisible.succ_of_escaped hescaped) hhidden'
  · rcases hbyte' with ⟨hvisible', rfl⟩ | ⟨hhidden', rfl⟩
    · have hfeed : e = ('\n' : UInt8) := by
        by_contra hfeed
        exact hhidden (hvisible'.pred (by rw [hb]; simpa using hfeed)
          (List.getElem?_eq_some_iff.mp hb).1)
      rw [hfeed]
      exact .blankLiteral (by decide) (by decide) (by decide) h
    · exact .blankLiteral (by simpa using mt hharmless hhidden') (by decide) (by decide) h

/--
If no comment in a range of the text holds a brace or a closing bracket, the copy is the text
with blanks, as long as the range ends with a byte that is no blank and no backslash.
-/
theorem isBlanked_drop {start stop : Nat}
    (hharmless : ∀ offset b, start < offset → offset < stop → text[offset]? = some b →
      isGroupByte b = true → IsVisibleAt text offset)
    {last : UInt8} (hlast : (blankComments text)[stop - 1]? = some last) (hspace : last ≠ ' ')
    (hbackslash : last ≠ '\\') (hstart : start < offset) (hstop : offset ≤ stop)
    (hescaped : isEscapedAt text offset = false) :
    IsBlanked (stop - offset) (text.drop offset) ((blankComments text).drop offset) := by
  have hlast' := (visible_of_getElem?_blankComments hlast hspace).2
  have hfit := (List.getElem?_eq_some_iff.mp hlast').1
  induction hn : stop - offset using Nat.strongRecOn generalizing offset with
  | ind n ih =>
      subst hn
      rcases Nat.eq_or_lt_of_le hstop with rfl | hlt
      · rw [Nat.sub_self]
        exact .rest _ _
      · have hb := List.getElem?_eq_getElem (show offset < text.length by omega)
        have hsucc := isEscapedAt_succ hb
        rw [hescaped, Bool.not_false, Bool.and_true] at hsucc
        by_cases hslash : text[offset] = ('\\' : UInt8)
        · -- A backslash is not the last byte, and the byte behind it is escaped.
          have hinside : offset + 1 < stop := by
            refine Nat.lt_of_le_of_ne hlt ?_
            rintro rfl
            exact hbackslash (Option.some.inj (hlast'.symm.trans (hb.trans (by rw [hslash]))))
          have hb' := List.getElem?_eq_getElem (show offset + 1 < text.length by omega)
          rw [hslash, beq_self_eq_true] at hsucc
          rw [hslash] at hb
          have hrest := ih _ (by omega) (show start < offset + 2 by omega) (by omega)
            (by rw [isEscapedAt_succ hb', hsucc]; simp) rfl
          rw [show stop - offset = stop - (offset + 2) + 2 by omega]
          exact isBlanked_of_escaped hb hb' hsucc (hharmless _ _ (by omega) hinside hb') hrest
        · have hrest := ih _ (by omega) (show start < offset + 1 by omega) hlt
            (by rw [hsucc]; simpa using hslash) rfl
          rw [show stop - offset = stop - (offset + 1) + 1 by omega]
          exact isBlanked_of_byte hb hslash (hharmless _ _ hstart hlt hb) hrest

theorem constructAt?_of_blankComments
    (h : constructAt? (blankComments text) offset = some (kind, construct))
    (hkind : kind = .definition ∨ kind = .command)
    (hharmless : ∀ place b, offset < place → place < offset + construct.length →
      text[place]? = some b → isGroupByte b = true → IsVisibleAt text place) :
    ∃ longer, constructAt? text offset = some (kind, longer) ∧
      construct.length ≤ longer.length := by
  obtain ⟨recognize, hentry, hfound⟩ := constructAt?_eq_some_iff.mp h
  obtain ⟨-, -, -, hcontext⟩ := visible_of_constructAt? h
  have hbounds := (construct?_spec h).2
  obtain ⟨last, hlast, hspace, hbackslash⟩ := exists_last_of_constructAt? h (by
    rintro rfl
    simp at hkind)
  -- Behind the control word, which is the same in both texts, the copy has blanks.
  have hbehind : controlWord ((blankComments text).drop offset) ≠ [] →
      1 + (controlWord ((blankComments text).drop offset)).length ≤ construct.length →
        controlWord (text.drop offset) = controlWord ((blankComments text).drop offset) ∧
          IsBlanked
            (construct.length - (1 + (controlWord ((blankComments text).drop offset)).length))
            (afterControlWord (text.drop offset))
            (afterControlWord ((blankComments text).drop offset)) := by
    intro hword hle
    have hsame := controlWord_drop_blankComments hword
    have hescaped := isEscapedAt_controlWord (hsame ▸ hword)
    rw [hsame] at hescaped
    have hblanked := isBlanked_drop hharmless hlast hspace hbackslash (by omega) (by omega)
      hescaped
    rw [Nat.add_sub_add_left] at hblanked
    refine ⟨hsame, ?_⟩
    rwa [afterControlWord, afterControlWord, List.drop_drop, List.drop_drop, hsame]
  rw [Recognizer.foundAt?, hcontext] at hfound
  suffices hsome : ∃ longer, recognize (.after (text.take offset)) (text.drop offset) =
      some longer ∧ construct.length ≤ longer.length by
    obtain ⟨longer, hlonger, hle⟩ := hsome
    exact ⟨longer, constructAt?_eq_some_iff.mpr ⟨recognize, hentry, hlonger⟩, hle⟩
  simp only [Recognizer.table, List.mem_cons, Prod.mk.injEq, List.not_mem_nil, or_false] at hentry
  rcases hentry with ⟨rfl, -⟩ | ⟨-, rfl⟩ | ⟨-, rfl⟩ | ⟨rfl, -⟩ | ⟨rfl, -⟩ | ⟨rfl, -⟩ | ⟨rfl, -⟩ |
    ⟨rfl, -⟩ | ⟨-, rfl⟩
  · simp at hkind
  · obtain ⟨-, hmem, arguments, -, hconstruct⟩ := Recognizer.newCommand_eq_some_iff.mp hfound
    obtain ⟨hword, hblanked⟩ := hbehind
      (Recognizer.controlWord_ne_nil_of_mem_definitionCommands hmem) (by rw [hconstruct]; simp)
    exact Recognizer.newCommand_of_blanked hfound hword hblanked
  · obtain ⟨-, hdef, behind, group, -, -, -, hconstruct⟩ :=
      Recognizer.definition_eq_some_iff.mp hfound
    obtain ⟨hword, hblanked⟩ := hbehind (by rw [hdef]; decide) (by
      rw [hdef, hconstruct, show (Text.ofString "def").length = 3 by decide]
      simp only
      omega)
    exact ⟨_, Recognizer.definition_of_blanked hfound hword hblanked, Nat.le_refl _⟩
  · simp at hkind
  · simp at hkind
  · simp at hkind
  · simp at hkind
  · simp at hkind
  · obtain ⟨-, hne, arguments, -, hconstruct⟩ := Recognizer.command_eq_some_iff.mp hfound
    obtain ⟨hword, hblanked⟩ := hbehind hne (by rw [hconstruct]; simp)
    exact ⟨_, Recognizer.command_of_blanked hfound hword hblanked, Nat.le_refl _⟩

end LatexIntegrity.Submission
