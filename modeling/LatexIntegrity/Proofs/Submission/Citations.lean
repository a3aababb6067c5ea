import LatexIntegrity.Submission.Statistics
import LatexIntegrity.Proofs.Region.Shape
import LatexIntegrity.Proofs.Submission.Comments

/-!
# Citations that are counted and citations that are kept

The statistics count the citations of the text without comments, and the segmentation
shields citations with a recognizer of its own.  The two agree on a citation without a
star.  A citation with a star is counted as well, but nothing shields it, unless a region
that begins before it goes on over it.
-/

namespace LatexIntegrity

/-! ## Text outside comments -/

namespace Submission

variable {text : Text} {offset : Nat}

theorem length_blankComments (text : Text) : (blankComments text).length = text.length := by
  conv_rhs => rw [← flatMap_body_regions text]
  simp only [blankComments, List.length_flatMap, length_visibleBody]

def IsVisibleAt (text : Text) (offset : Nat) : Prop :=
  ∀ span ∈ segment text, span.contains offset = true → span.kind ≠ .comment

theorem isVisibleAt_of_contains {span : Span} (hspan : span ∈ segment text)
    (hoffset : span.contains offset = true) (hkind : span.kind ≠ .comment) :
    IsVisibleAt text offset := by
  intro other hother hcontains
  rwa [(tiles_segment text).eq_of_contains hother hspan hcontains hoffset]

theorem isCommentLine_of_mem_segment {span : Span} (hspan : span ∈ segment text)
    (hkind : span.kind = .comment) : IsCommentLine text span.start span.stop := by
  have hbounds := (tiles_segment text).bounds hspan
  have hshape := (isFirstMatch_of_mem_spans [] text span hspan).hasShape (by omega)
    (by rw [Span.isShielded, hkind]; rfl)
  simpa [Span.HasShape, hkind] using hshape

namespace IsVisibleAt

theorem getElem? (h : IsVisibleAt text offset) : (blankComments text)[offset]? = text[offset]? := by
  by_cases hlt : offset < text.length
  · obtain ⟨span, hspan, hoffset⟩ := (tiles_segment text).exists_contains (Nat.zero_le _) hlt
    have hkind := h span hspan hoffset
    rw [getElem?_blankComments hspan hoffset, if_neg (by simpa using hkind)]
  · rw [List.getElem?_eq_none (by rw [length_blankComments]; omega),
      List.getElem?_eq_none (by omega)]

theorem succ (h : IsVisibleAt text offset) (hpercent : text[offset + 1]? ≠ some ('%' : UInt8)) :
    IsVisibleAt text (offset + 1) := by
  intro span hspan hcontains hkind
  have hbegin := (isCommentLine_of_mem_segment hspan hkind).1.2
  rw [Span.contains_iff] at hcontains
  by_cases hstart : span.start = offset + 1
  · obtain ⟨rest, hrest⟩ := hbegin
    rw [hstart, show Text.ofString "%" = [('%' : UInt8)] by decide] at hrest
    rw [← List.head?_drop, ← hrest] at hpercent
    exact hpercent rfl
  · have hbefore : span.contains offset = true := by
      rw [Span.contains_iff]
      omega
    exact h span hspan hbefore hkind

theorem pred (h : IsVisibleAt text (offset + 1)) (hfeed : text[offset + 1]? ≠ some ('\n' : UInt8))
    (hlt : offset + 1 < text.length) : IsVisibleAt text offset := by
  intro span hspan hcontains hkind
  have hend := (isCommentLine_of_mem_segment hspan hkind).2.1.2
  rw [Span.contains_iff] at hcontains
  by_cases hstop : span.stop = offset + 1
  · rw [hstop] at hend
    rcases hend with hend | hend
    · exact hfeed hend
    · omega
  · have hbehind : span.contains (offset + 1) = true := by
      rw [Span.contains_iff]
      omega
    exact h span hspan hbehind hkind

end IsVisibleAt

theorem isEscapedAt_succ {b : UInt8} (h : text[offset]? = some b) :
    isEscapedAt text (offset + 1) = (b == '\\' && !isEscapedAt text offset) := by
  obtain ⟨hlt, rfl⟩ := List.getElem?_eq_some_iff.mp h
  rw [isEscapedAt_add, List.drop_eq_getElem_cons hlt, List.take_succ_cons, List.take_zero]
  rfl

theorem isEscapedAt_blankComments (h : IsVisibleAt text offset)
    (hfeed : text[offset]? ≠ some ('\n' : UInt8)) (hlt : offset < text.length) :
    isEscapedAt (blankComments text) offset = isEscapedAt text offset := by
  -- The bytes before are visible back to the line feed that ends a comment, which escapes nothing.
  induction offset with
  | zero => rfl
  | succ offset ih =>
      have hbefore := h.pred hfeed hlt
      have hbyte : text[offset]? = some text[offset] := List.getElem?_eq_getElem _
      rw [isEscapedAt_succ hbyte, isEscapedAt_succ (hbefore.getElem?.trans hbyte)]
      by_cases hline : text[offset] = ('\n' : UInt8)
      · have hfeed' : (('\n' : UInt8) == ('\\' : UInt8)) = false := by decide
        rw [hline, hfeed', Bool.false_and, Bool.false_and]
      · rw [ih hbefore (by simpa [hbyte] using hline) (by omega)]

theorem prefix_drop_blankComments {bytes : Text} (hvisible : IsVisibleAt text offset)
    (h : bytes <+: text.drop offset) (hpercent : ('%' : UInt8) ∉ bytes) :
    bytes <+: (blankComments text).drop offset := by
  induction bytes generalizing offset with
  | nil => exact List.nil_prefix
  | cons b rest ih =>
      obtain ⟨behind, hbehind⟩ := h
      have hbyte : text[offset]? = some b := by
        rw [← List.head?_drop, ← hbehind]
        rfl
      have hrest : rest <+: text.drop (offset + 1) := by
        rw [← List.drop_drop, ← hbehind]
        exact List.prefix_append _ _
      obtain ⟨hlt, hget⟩ := List.getElem?_eq_some_iff.mp (hvisible.getElem?.trans hbyte)
      rw [List.drop_eq_getElem_cons hlt, hget, List.cons_prefix_cons]
      refine ⟨rfl, ?_⟩
      cases rest with
      | nil => exact List.nil_prefix
      | cons second others =>
          obtain ⟨last, hlast⟩ := hrest
          have hnext : text[offset + 1]? = some second := by
            rw [← List.head?_drop, ← hlast]
            rfl
          refine ih (hvisible.succ ?_) ⟨last, hlast⟩
            fun hmem => hpercent (List.mem_cons_of_mem _ hmem)
          rw [hnext]
          rintro hsecond
          exact hpercent (by simp [Option.some.inj hsecond])

/-! ## Counted elements -/

def elementAt? (text : Text) (offset : Nat) : Option Element :=
  Element.read? (.after ((blankComments text).take offset)) ((blankComments text).drop offset)

theorem count_elementsFrom (element : Element) (context : LeftContext) (text : Text) :
    (elementsFrom context text).count element = (List.range text.length).countP fun offset =>
      Element.read? (context.pushAll (text.take offset)) (text.drop offset) == some element := by
  induction text generalizing context with
  | nil => rfl
  | cons b rest ih =>
      have hfirst : (Element.read? context (b :: rest)).toList.count element =
          if Element.read? context (b :: rest) == some element then 1 else 0 := by
        cases Element.read? context (b :: rest) <;> simp [List.count_singleton]
      rw [elementsFrom, List.count_append, ih, hfirst, List.length_cons, List.range_succ_eq_map,
        List.countP_cons, List.countP_map, Nat.add_comm]
      rfl

theorem citations_eq_countP (text : Text) :
    (statistics text).citations =
      (List.range text.length).countP fun offset => elementAt? text offset == some .citation := by
  rw [statistics, count_elementsFrom, length_blankComments]
  rfl

end Submission

/-! ## The two readers of a citation -/

namespace Recognizer

def otherWords : List Text :=
  "def" :: "begin" :: "end" :: (definitionCommands ++ singleArgumentCommands)

section Word

variable {word : Text}

theorem not_mem_otherWords (h : isCitationCommand word = true) : word ∉ otherWords := by
  have hall : ∀ word ∈ otherWords, isCitationCommand word = false := by decide
  intro hmem
  rw [hall word hmem] at h
  cases h

theorem isCitationCommand_append {letters : Text} (h : ∀ b ∈ letters, Ascii.isLower b = true) :
    isCitationCommand ("cite" ++ letters) = true := by
  have hlength : (Text.ofString "cite").length = 4 := by decide
  rw [isCitationCommand, Bool.and_eq_true, List.isPrefixOf_iff_prefix, List.all_eq_true,
    ← hlength, List.drop_left]
  exact ⟨List.prefix_append _ _, h⟩

theorem isLetter_of_isCitationCommand (h : isCitationCommand word = true) {b : UInt8}
    (hb : b ∈ word) : Ascii.isLetter b = true := by
  obtain ⟨letters, rfl, hlower⟩ := exists_letters_of_isCitationCommand h
  have hcite : ∀ b ∈ Text.ofString "cite", Ascii.isLetter b = true :=
    List.all_eq_true.mp (by decide)
  rcases List.mem_append.mp hb with hb | hb
  · exact hcite b hb
  · rw [Ascii.isLetter, hlower b hb, Bool.true_or]

theorem commandArguments?_citation (h : isCitationCommand word = true) (text : Text) :
    commandArguments? word text = citationArguments? 2 text := by
  have hother := not_mem_otherWords h
  have hsingle : singleArgumentCommands.contains word = false := by
    rw [← Bool.not_eq_true, List.contains_iff_mem]
    exact fun hmem => hother (by simp [otherWords, hmem])
  rw [commandArguments?_eq, hsingle, if_neg Bool.false_ne_true, if_pos h]

theorem candidate_of_citation {text : Text} (h : isCitationCommand (controlWord text) = true) :
    candidate text = 8 := by
  have hother := not_mem_otherWords h
  have hword : controlWord text ≠ [] := by
    intro hnil
    rw [hnil] at h
    cases h
  simp only [otherWords, List.mem_cons, List.mem_append, not_or] at hother
  obtain ⟨hdef, hbegin, -, hdefinition, -⟩ := hother
  rw [candidate_of_controlWord hword]
  simp [hdef, hbegin, hdefinition]

end Word

variable {starred : Bool} {source : Text}

theorem exists_opener_of_isCitationArguments {count : Nat} {arguments : Text}
    (h : IsCitationArguments count arguments) :
    ∃ opener rest, arguments = opener :: rest ∧
      (opener = ('{' : UInt8) ∨ opener = ('[' : UInt8)) := by
  obtain ⟨options, key, rfl, -, hoptions, body, rfl, -⟩ := h
  cases options with
  | nil => exact ⟨'{', _, rfl, .inl rfl⟩
  | cons option options =>
      obtain ⟨⟨body, rfl, -⟩, -⟩ := List.forall_mem_cons.mp hoptions
      exact ⟨'[', _, rfl, .inr rfl⟩

theorem IsCitation.exists_word (h : IsCitation starred source) :
    ∃ word opener rest, isCitationCommand word = true ∧
      (opener = ('{' : UInt8) ∨ opener = ('[' : UInt8)) ∧ IsCitationArguments 2 (opener :: rest) ∧
        source = ('\\' : UInt8) :: (word ++ (star starred ++ opener :: rest)) := by
  obtain ⟨letters, arguments, hletters, harguments, rfl⟩ := h
  obtain ⟨opener, rest, rfl, hopener⟩ := exists_opener_of_isCitationArguments harguments
  exact ⟨"cite" ++ letters, opener, rest, isCitationCommand_append hletters, hopener, harguments,
    by simp⟩

theorem controlWord_citation {word rest : Text} {opener : UInt8}
    (hword : isCitationCommand word = true)
    (hopener : opener = ('{' : UInt8) ∨ opener = ('[' : UInt8)) :
    controlWord (('\\' : UInt8) :: (word ++ (star starred ++ opener :: rest))) = word ∧
      afterControlWord (('\\' : UInt8) :: (word ++ (star starred ++ opener :: rest))) =
        star starred ++ opener :: rest := by
  have hbehind : ∀ b, (star starred ++ opener :: rest).head? = some b →
      Ascii.isLetter b = false := by
    intro b hb
    cases starred with
    | true =>
        cases hb
        decide
    | false =>
        cases hb
        rcases hopener with rfl | rfl <;> decide
  exact ⟨controlWord_cons_append (fun _ => isLetter_of_isCitationCommand hword) hbehind,
    afterControlWord_cons_append (fun _ => isLetter_of_isCitationCommand hword) hbehind⟩

theorem construct?_citation {context : LeftContext} (hescaped : context.escaped = false)
    (h : IsCitation false source) (rest : Text) :
    construct? context (source ++ rest) = some (.command, ⟨source.length, []⟩) := by
  obtain ⟨word, opener, behind, hword, hopener, harguments, rfl⟩ := h.exists_word
  obtain ⟨hcontrol, hafter⟩ :=
    @controlWord_citation false word (behind ++ rest) opener hword hopener
  have hread : command context
      (('\\' : UInt8) :: (word ++ (star false ++ opener :: (behind ++ rest)))) =
      some ⟨1 + word.length + (opener :: behind).length, []⟩ := by
    refine command_eq_some_iff.mpr ⟨hescaped, ?_, (opener :: behind).length, ?_, ?_⟩
    · rw [hcontrol]
      rintro rfl
      cases hword
    · rw [hcontrol, hafter, commandArguments?_citation hword]
      exact citationArguments?_append harguments rest
    · rw [hcontrol]
  refine construct?_eq_some_iff.mpr ⟨command, by simp [table], ?_⟩
  simpa [star, Nat.add_comm, Nat.add_left_comm] using hread

theorem construct?_starred {context : LeftContext} (h : IsCitation true source) (rest : Text) :
    construct? context (source ++ rest) = none := by
  obtain ⟨word, opener, behind, hword, hopener, -, rfl⟩ := h.exists_word
  obtain ⟨hcontrol, hafter⟩ := @controlWord_citation true word (behind ++ rest) opener hword hopener
  have hnone : citationArguments? 2 (star true ++ opener :: (behind ++ rest)) = none := by
    have hhead : (star true ++ opener :: (behind ++ rest)).head? ≠ some ('[' : UInt8) :=
      show some ('*' : UInt8) ≠ some ('[' : UInt8) by decide
    rw [citationArguments?_succ, if_neg hhead]
    rfl
  rw [List.cons_append, List.append_assoc, List.append_assoc, List.cons_append]
  refine construct?_eq_none_of_candidate ?_
  intro entry hentry
  rw [candidate_of_citation (by rwa [hcontrol])] at hentry
  cases hentry
  simp [command, hcontrol, hafter, commandArguments?_citation hword, hnone]

end Recognizer

namespace Submission

open Recognizer

theorem read?_citation {context : LeftContext} (hescaped : context.escaped = false)
    {starred : Bool} {word rest : Text} {opener : UInt8} (hword : isCitationCommand word = true)
    (hopener : opener = ('{' : UInt8) ∨ opener = ('[' : UInt8)) :
    Element.read? context (('\\' : UInt8) :: (word ++ (star starred ++ opener :: rest))) =
      some .citation := by
  obtain ⟨hcontrol, hafter⟩ := @controlWord_citation starred word rest opener hword hopener
  have hother := not_mem_otherWords hword
  simp only [otherWords, List.mem_cons, List.mem_append, not_or] at hother
  obtain ⟨-, hbegin, hend, -⟩ := hother
  have htoken : DelimiterToken.read? (('\\' : UInt8) ::
      (word ++ (star starred ++ opener :: rest))) = none := by
    rw [DelimiterToken.read?, hcontrol]
    simp [DelimiterToken.side?, DelimiterSide.word, hbegin, hend]
  have hstarts : startsCitation (('\\' : UInt8) ::
      (word ++ (star starred ++ opener :: rest))) = true := by
    rw [startsCitation, hcontrol, hafter, hword]
    cases starred <;> rcases hopener with rfl | rfl <;> rfl
  rw [Element.read?, hescaped, if_neg Bool.false_ne_true, htoken]
  simp [hstarts]

end Submission

/-! ## Citations in a text -/

/-- A citation that is not escaped, from `start` to the end of its last argument. -/
def IsCitationAt (text : Text) (starred : Bool) (start stop : Nat) : Prop :=
  isEscapedAt text start = false ∧ start ≤ stop ∧ stop ≤ text.length ∧
    Recognizer.IsCitation starred (text.slice start stop)

namespace IsCitationAt

variable {text : Text} {starred : Bool} {start stop : Nat}

theorem drop_eq (h : IsCitationAt text starred start stop) :
    text.drop start = text.slice start stop ++ text.drop stop := by
  obtain ⟨-, hle, -⟩ := h
  have hsplit := List.take_append_drop (stop - start) (text.drop start)
  rw [List.drop_drop, Nat.add_sub_cancel' hle] at hsplit
  exact hsplit.symm

theorem lt_length (h : IsCitationAt text starred start stop) : start < text.length := by
  by_contra hge
  have hnil := h.drop_eq
  obtain ⟨-, -, -, hcitation⟩ := h
  obtain ⟨word, opener, rest, -, -, -, hsource⟩ := hcitation.exists_word
  rw [List.drop_eq_nil_of_le (by omega), hsource] at hnil
  cases hnil

theorem elementAt?_eq (h : IsCitationAt text starred start stop)
    (hvisible : Submission.IsVisibleAt text start) :
    Submission.elementAt? text start = some .citation := by
  have hdrop := h.drop_eq
  have hlt := h.lt_length
  obtain ⟨hescaped, -, -, hcitation⟩ := h
  obtain ⟨word, opener, rest, hword, hopener, -, hsource⟩ := hcitation.exists_word
  rw [hsource] at hdrop
  have hhead : ('\\' : UInt8) :: (word ++ (Recognizer.star starred ++ [opener])) <+:
      text.drop start := ⟨rest ++ text.drop stop, by rw [hdrop]; simp⟩
  have hpercent : ('%' : UInt8) ∉
      ('\\' : UInt8) :: (word ++ (Recognizer.star starred ++ [opener])) := by
    have hletter : ('%' : UInt8) ∉ word := fun hmem => by
      have := Recognizer.isLetter_of_isCitationCommand hword hmem
      revert this
      decide
    cases starred <;> rcases hopener with rfl | rfl <;> simp [hletter, Recognizer.star] <;> decide
  obtain ⟨behind, hbehind⟩ := Submission.prefix_drop_blankComments hvisible hhead hpercent
  have hfeed : text[start]? ≠ some ('\n' : UInt8) := by
    rw [← List.head?_drop, hdrop, List.cons_append, List.head?_cons]
    decide
  have hcontext := Submission.isEscapedAt_blankComments hvisible hfeed hlt
  rw [hescaped] at hcontext
  rw [Submission.elementAt?, ← hbehind]
  simpa using Submission.read?_citation hcontext hword hopener

end IsCitationAt

/--
The statistics count the offsets at which a citation is read, and one is read at every
citation outside comments.  Without a star it lies in a shielded span, and the span that
begins with it is a command that ends with it, so that no plain span has a part of it.
With a star it is shielded only by a region that begins before it.
-/
theorem segment_citation {text : Text} {starred : Bool} {start stop : Nat}
    (h : IsCitationAt text starred start stop) :
    (Submission.statistics text).citations = (List.range text.length).countP (fun offset =>
        Submission.elementAt? text offset == some .citation) ∧
      ∃ span ∈ segment text, span.contains start = true ∧
        (span.kind ≠ .comment → Submission.elementAt? text start = some .citation) ∧
        (starred = false → span.isShielded = true ∧
          (span.start = start → span = ⟨start, stop, .command, []⟩ ∧
            ∀ other ∈ segment text, other.isShielded = false →
              other.stop ≤ start ∨ stop ≤ other.start)) ∧
        (starred = true → span.isShielded = true → span.start < start) := by
  obtain ⟨span, hspan, hcontains⟩ :=
    (tiles_segment text).exists_contains (Nat.zero_le start) h.lt_length
  have hscan := isFirstMatch_of_mem_spans [] text span hspan
  have hbounds := (tiles_segment text).bounds hspan
  have hstart := Span.contains_iff.mp hcontains
  have hdrop := h.drop_eq
  have hvisible := fun hkind =>
    h.elementAt?_eq (Submission.isVisibleAt_of_contains hspan hcontains hkind)
  obtain ⟨hescaped, hle, hfit, hcitation⟩ := h
  -- What begins at the citation is what the table finds there.
  have hfound : span.isShielded = true → span.start = start →
      construct? (.after (text.take start)) (text.drop start) =
        some (span.kind, ⟨span.stop - span.start, span.name⟩) := by
    rintro hshielded rfl
    obtain ⟨before, recognize, after, htable, -, hfound⟩ := hscan.found hshielded
    exact construct?_eq_some_iff.mpr ⟨recognize, by rw [htable]; simp, hfound⟩
  refine ⟨Submission.citations_eq_countP text, span, hspan, hcontains, hvisible, ?_, ?_⟩
  · rintro rfl
    have hread := Recognizer.construct?_citation hescaped hcitation (text.drop stop)
    rw [← hdrop] at hread
    have hshielded : span.isShielded = true := by
      cases hplain : span.isShielded with
      | true => rfl
      | false =>
          have hnone := construct?_eq_none_iff.mpr
            (hscan.declined hplain start hstart.1 hstart.2)
          cases hread.symm.trans hnone
    refine ⟨hshielded, fun hbegin => ?_⟩
    have hsame := hread.symm.trans (hfound hshielded hbegin)
    have hlength : (text.slice start stop).length = stop - start := by
      rw [Text.slice, List.length_take, List.length_drop]
      omega
    simp only [hlength, Option.some.injEq, Prod.mk.injEq, Construct.mk.injEq] at hsame
    obtain ⟨hkind, hstop, hname⟩ := hsame
    have hend : span.stop = stop := by omega
    refine ⟨by rw [← hbegin, ← hend, hkind, hname], fun other hother hplain => ?_⟩
    have hne : span ≠ other := by
      rintro rfl
      rw [hplain] at hshielded
      cases hshielded
    have happart := (tiles_segment text).apart hspan hother hne
    omega
  · rintro rfl hshielded
    have hread := @Recognizer.construct?_starred _ (.after (text.take start)) hcitation
      (text.drop stop)
    rw [← hdrop] at hread
    refine Nat.lt_of_le_of_ne hstart.1 fun hbegin => ?_
    cases hread.symm.trans (hfound hshielded hbegin)

/-- The citation that has a star is counted and lies in a plain span. -/
theorem segment_citation_star :
    let text : Text := "\\cite[1]\x7ba_b\x7d\\cite*\x7bc_d\x7d"
    IsCitationAt text false 0 13 ∧ IsCitationAt text true 13 24 ∧
      (⟨0, 13, .command, []⟩ : Span) ∈ segment text ∧
        (⟨13, 24, .plain, []⟩ : Span) ∈ segment text ∧
          Submission.elementAt? text 13 = some .citation := by
  intro text
  have hfirst : IsCitationAt text false 0 13 := by
    refine ⟨by decide, by decide, by decide, [], "[1]\x7ba_b\x7d", List.forall_mem_nil _, ?_,
      by decide⟩
    refine ⟨["[1]"], "\x7ba_b\x7d", by decide, by decide, ?_, "a_b", by decide, by decide⟩
    exact List.forall_mem_singleton.mpr ⟨"1", by decide, by decide⟩
  have hsecond : IsCitationAt text true 13 24 := by
    refine ⟨by decide, by decide, by decide, [], "\x7bc_d\x7d", List.forall_mem_nil _, ?_,
      by decide⟩
    exact ⟨[], "\x7bc_d\x7d", by decide, by decide, List.forall_mem_nil _, "c_d", by decide,
      by decide⟩
  have hplain : (⟨13, 24, .plain, []⟩ : Span) ∈ segment text := by decide +kernel
  obtain ⟨-, first, hmem, hcontains, -, hkept, -⟩ := segment_citation hfirst
  obtain ⟨-, second, hmem', hcontains', hcounted, -⟩ := segment_citation hsecond
  have hstart : first.start = 0 := by
    rw [Span.contains_iff] at hcontains
    omega
  obtain rfl := (tiles_segment text).eq_of_contains hmem' hplain hcontains' (by decide)
  refine ⟨hfirst, hsecond, ?_, hplain, hcounted (by decide)⟩
  rw [← ((hkept rfl).2 hstart).1]
  exact hmem

end LatexIntegrity
