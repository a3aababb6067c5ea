import LatexIntegrity.Proofs.Region.Splitting
import LatexIntegrity.Proofs.Repair.Retagging
import LatexIntegrity.Proofs.Sanitize.Shielding

/-!
# Replacing tags keeps shielded regions

The shielded regions of a text are found again, in this order, in the text without its tags,
if the tags stand clear of them: no control sequence goes on where a tag stood, no argument
that begins in plain text takes the bytes behind it, and no two dollar signs meet.
-/

namespace LatexIntegrity.Repair

/-! ## Tags and spans -/

def taglessFrom (text : Text) (offset : Nat) : Text :=
  Edit.splice text offset ((tagEdits text).filter (offset ≤ ·.offset))

def taglessSpan (text : Text) (span : Span) : Text :=
  Edit.splice (text.take span.stop) span.start
    ((tagEdits text).filter fun edit => span.contains edit.offset)

variable {text : Text} {span : Span}

theorem taglessFrom_zero (text : Text) : taglessFrom text 0 = (replaceTags text).1 := by
  rw [taglessFrom, replaceTags_eq_splice, List.filter_eq_self.mpr (by simp)]

theorem plain_of_contains {edit : Edit} (hedit : edit ∈ tagEdits text)
    (hspan : span ∈ segment text) (hcontains : span.contains edit.offset = true) :
    span.kind = .plain ∧ edit.offset + edit.length ≤ span.stop := by
  have htag := isTagEdit_of_mem_tagEdits hedit
  have hlength := htag.tag.one_lt
  obtain ⟨other, hother, hkind, hstart, hstop⟩ := htag.plain
  have hother' : other.contains edit.offset = true := by
    rw [Span.contains_iff]
    omega
  rw [(tiles_segment text).eq_of_contains hspan hother hcontains hother']
  exact ⟨hkind, hstop⟩

theorem taglessFrom_start (hspan : span ∈ segment text) :
    taglessFrom text span.start = taglessSpan text span ++ taglessFrom text span.stop := by
  have hbounds := (tiles_segment text).bounds hspan
  rw [taglessFrom, Edit.splice_eq_append (Nat.le_of_lt hbounds.2.1)
    ((follow_tagEdits text).filter _), List.filter_filter, List.filter_filter]
  · have hinside : ∀ edit : Edit, (decide (edit.offset < span.stop) &&
        decide (span.start ≤ edit.offset)) = span.contains edit.offset :=
      fun edit => Bool.and_comm _ _
    have hbehind : ∀ edit : Edit, (decide (span.stop ≤ edit.offset) &&
        decide (span.start ≤ edit.offset)) = decide (span.stop ≤ edit.offset) := by
      intro edit
      rw [← Bool.decide_and, decide_eq_decide]
      omega
    simp only [hinside, hbehind]
    rfl
  · intro edit hedit
    obtain ⟨hedit, hstart⟩ := List.mem_filter.mp hedit
    rcases Nat.lt_or_ge edit.offset span.stop with hstop | hbehind
    · have hcontains : span.contains edit.offset = true :=
        Span.contains_iff.mpr ⟨of_decide_eq_true hstart, hstop⟩
      exact .inl ⟨hstop, (plain_of_contains hedit hspan hcontains).2⟩
    · exact .inr hbehind

theorem taglessSpan_eq_slice (hspan : span ∈ segment text) (hkind : span.kind ≠ .plain) :
    taglessSpan text span = text.slice span.start span.stop := by
  rw [taglessSpan, List.filter_eq_nil_iff.mpr, Edit.splice, List.drop_take]
  · rfl
  · exact fun edit hedit hcontains => hkind (plain_of_contains hedit hspan hcontains).1

theorem taglessFrom_of_forall {offset : Nat} (h : ∀ edit ∈ tagEdits text, edit.offset < offset) :
    taglessFrom text offset = text.drop offset := by
  rw [taglessFrom, List.filter_eq_nil_iff.mpr, Edit.splice]
  intro edit hedit
  rw [decide_eq_true_eq, Nat.not_le]
  exact h edit hedit

/-! ## What tags must leave alone -/

def dollarsMeet (first second : Text) : Bool :=
  first.getLast? == some ('$' : UInt8) && second.head? == some ('$' : UInt8)

/--
Without its tags a plain span is still plain: dollar signs neither meet at its ends nor are left
over in it, and no command in it has begun its arguments.
-/
structure StaysPlain (text : Text) (span : Span) : Prop where
  front : dollarsMeet (text.take span.start)
    (taglessSpan text span ++ text.drop span.stop) = false
  back : dollarsMeet (taglessSpan text span) (text.drop span.stop) = false
  dollars : span.stop < text.length → HasNoStrayDollar (taglessSpan text span)
  arguments : span.stop < text.length → ∀ place ∈ span.places text,
    beginsArguments place.context place.rest = false

instance (text : Text) (span : Span) : Decidable (StaysPlain text span) :=
  decidable_of_iff (_ ∧ _ ∧ _ ∧ _)
    ⟨fun h => ⟨h.1, h.2.1, h.2.2.1, h.2.2.2⟩, fun h => ⟨h.front, h.back, h.dollars, h.arguments⟩⟩

/-- The tags of a text disturb none of its regions. -/
structure TagsStandClear (text : Text) : Prop where
  markup : ∀ edit ∈ tagEdits text, endsInMarkup (text.take edit.offset)
    (edit.replacement ++ text.drop (edit.offset + edit.length)) = false
  plain : ∀ span ∈ segment text, span.kind = .plain →
    (∃ edit ∈ tagEdits text, span.start ≤ edit.offset) → StaysPlain text span
  definitions : ∀ span ∈ segment text, span.kind = .definition →
    Recognizer.definitionArguments? (text.drop span.stop) = none →
      Recognizer.definitionArguments? (taglessFrom text span.stop) = none

instance (text : Text) : Decidable (TagsStandClear text) :=
  decidable_of_iff (_ ∧ _ ∧ _)
    ⟨fun h => ⟨h.1, h.2.1, h.2.2⟩, fun h => ⟨h.markup, h.plain, h.definitions⟩⟩

/-! ## Texts without tags as retagged texts -/

theorem StartsWithTag.take {length : Nat} (h : StartsWithTag text length)
    (hlength : length ≤ text.length) :
    StartsWithTag (text.take length) (text.take length).length := by
  have hpos := h.one_lt
  rw [List.length_take_of_le hlength]
  refine ⟨?_, ?_⟩
  · rw [List.getElem?_take_of_lt (by omega), h.opened]
  · rw [List.getElem?_take_of_lt (by omega), h.closed]

theorem retags_splice (hclear : TagsStandClear text) {position stop : Nat} {edits : List Edit}
    (hfollow : Edit.Follow edits) (hposition : position ≤ stop) (hstop : stop ≤ text.length)
    (hedits : ∀ edit ∈ edits, edit ∈ tagEdits text ∧ position ≤ edit.offset ∧
      edit.offset + edit.length ≤ stop) :
    Retags (text.drop stop) (text.take position) (text.slice position stop)
      (Edit.splice (text.take stop) position edits) := by
  induction edits generalizing position with
  | nil =>
      have hcopies := Retags.copies (text.slice position stop)
        (.nil (text.take position ++ text.slice position stop) :
          Retags (text.drop stop) _ [] [])
      rw [List.append_nil] at hcopies
      rw [Edit.splice, List.drop_take]
      exact hcopies
  | cons edit rest ih =>
      obtain ⟨hnext, hrest⟩ := List.pairwise_cons.mp hfollow
      obtain ⟨⟨hedit, hstart, hend⟩, hedits⟩ := List.forall_mem_cons.mp hedits
      have htag := isTagEdit_of_mem_tagEdits hedit
      have hthrough : edit.offset ≤ edit.offset + edit.length := Nat.le_add_right _ _
      rw [Edit.splice, text.slice_take (Nat.le_trans hthrough hend),
        ← text.slice_append_slice hstart (Nat.le_trans hthrough hend),
        ← text.slice_append_slice hthrough hend, List.append_assoc]
      apply Retags.copies
      rw [text.take_append_slice hstart]
      refine .replace ?_ htag.written ?_ ?_
      · have htake := htag.tag.take (by rw [List.length_drop]; omega)
        rwa [Text.slice, Nat.add_sub_cancel_left]
      · rw [text.slice_append_drop hend]
        exact hclear.markup edit hedit
      · rw [text.take_append_slice hthrough]
        exact ih hrest hend fun other hother =>
          ⟨(hedits other hother).1, hnext other hother, (hedits other hother).2.2⟩

theorem retags_taglessSpan (hclear : TagsStandClear text) (hspan : span ∈ segment text) :
    Retags (text.drop span.stop) (text.take span.start) (text.slice span.start span.stop)
      (taglessSpan text span) := by
  have hbounds := (tiles_segment text).bounds hspan
  refine retags_splice hclear ((follow_tagEdits text).filter _) (Nat.le_of_lt hbounds.2.1)
    hbounds.2.2 ?_
  intro edit hedit
  obtain ⟨hedit, hcontains⟩ := List.mem_filter.mp hedit
  have hstop := (plain_of_contains hedit hspan hcontains).2
  rw [Span.contains_iff] at hcontains
  exact ⟨hedit, hcontains.1, hstop⟩

theorem retags_taglessFrom (hclear : TagsStandClear text) {offset : Nat}
    (hoffset : offset ≤ text.length) :
    Retags [] (text.take offset) (text.drop offset) (taglessFrom text offset) := by
  have hslice : text.slice offset text.length = text.drop offset := by
    rw [← text.slice_append_drop hoffset, List.drop_length, List.append_nil]
  have hretags := retags_splice hclear ((follow_tagEdits text).filter (offset ≤ ·.offset)) hoffset
    (Nat.le_refl _) ?_
  · rwa [List.take_length, List.drop_length, hslice] at hretags
  · intro edit hedit
    obtain ⟨hedit, hstart⟩ := List.mem_filter.mp hedit
    obtain ⟨other, hother, -, -, hstop⟩ := (isTagEdit_of_mem_tagEdits hedit).plain
    have hbounds := (tiles_segment text).bounds hother
    exact ⟨hedit, of_decide_eq_true hstart, by omega⟩

/-! ## Scans of calm texts -/

section

variable {context : LeftContext} {run rest : Text}

theorem escaped_of_hasNoStrayDollar (h : HasNoStrayDollar run)
    (hescaped : context.escaped = false ∨ run.head? = some ('\n' : UInt8))
    (hdollar : run.head? = some ('$' : UInt8) → context.dollar = false) {place : BytePlace}
    (hplace : place ∈ plainPlacesFrom context run)
    (hhead : place.rest.head? = some ('$' : UInt8)) : place.context.escaped = true := by
  rw [HasNoStrayDollar, plainPlaces_eq] at h
  cases run with
  | nil => simp [plainPlacesFrom] at hplace
  | cons b others =>
      obtain ⟨hfound, hpush⟩ := @scan_context .initial context b others
        (hescaped.imp_right fun hb => Option.some.inj hb) fun hb => hdollar (congrArg some hb)
      rw [plainPlacesFrom, hfound] at hplace
      rw [plainPlacesFrom] at h
      split at hplace
      · next heq =>
          rw [heq] at h
          rw [LeftContext.pushAll_cons, hpush] at hplace
          exact h place hplace hhead
      · next heq =>
          rw [heq] at h
          obtain ⟨hfirst, hothers⟩ := List.forall_mem_cons.mp h
          rcases List.mem_cons.mp hplace with rfl | hplace
          · cases hfirst hhead
          · rw [hpush] at hplace
            exact hothers place hplace hhead

theorem exists_body_of_construct? {kind : RegionKind} {construct : Construct}
    (h : construct? context text = some (kind, construct)) :
    ∃ body rest, text = body ++ rest ∧ body ≠ [] ∧ construct = ⟨body.length, construct.name⟩ := by
  obtain ⟨-, hpos, hfit⟩ := construct?_spec h
  have hlength := List.length_take_of_le hfit
  refine ⟨text.take construct.length, text.drop construct.length,
    (List.take_append_drop _ _).symm, ?_, by rw [hlength]⟩
  exact List.ne_nil_of_length_pos (by rwa [hlength])

theorem construct?_dollar_append {body inner : Text} {kind : RegionKind} {name : Text}
    (h : construct? context (body ++ inner) = some (kind, ⟨body.length, name⟩))
    (hhead : (body ++ inner).head? = some ('$' : UInt8)) (hbody : body ≠ [])
    (hdollar : (body ++ inner).getLast? = some ('$' : UInt8) → rest.head? ≠ some ('$' : UInt8)) :
    construct? context (body ++ (inner ++ rest)) = some (kind, ⟨body.length, name⟩) := by
  have hkind : kind = .displayMath ∨ kind = .inlineMath := by
    obtain ⟨others, hothers⟩ := List.head?_eq_some_iff.mp hhead
    rw [hothers] at h
    exact kind_of_construct?_dollar h
  apply construct?_again_of_kind h
  · rintro rfl
    simp at hkind
  · intro _ hlast hinner
    rw [LeftContext.pushAll_dollar _ hbody, beq_iff_eq] at hlast
    cases inner with
    | nil => exact hdollar (by rwa [List.append_nil])
    | cons c tail => exact hinner
  · rintro rfl
    simp at hkind

theorem IsCalm.sublist_shieldedFrom (hcalm : IsCalm context run rest)
    (hstray : ∀ place ∈ plainPlacesFrom context run,
      place.rest.head? = some ('$' : UInt8) → place.context.escaped = true)
    (hdollar : run.getLast? = some ('$' : UInt8) → rest.head? ≠ some ('$' : UInt8)) :
    (shieldedFrom (context.pushAll run) rest).Sublist (shieldedFrom context (run ++ rest)) := by
  -- Behind a region the rest of the run is no tail, so the induction is on its length.
  induction hn : run.length using Nat.strongRecOn generalizing context run with
  | ind n ih =>
      subst hn
      cases run with
      | nil => exact List.Sublist.refl _
      | cons b others =>
          cases hfound : construct? context (b :: others) with
          | none =>
              rw [plainPlacesFrom_plain hfound] at hstray
              obtain ⟨hfirst, hothers⟩ := List.forall_mem_cons.mp hstray
              have hnone : construct? context (b :: (others ++ rest)) = none := by
                by_cases hb : b = '$'
                · exact construct?_eq_none_of_escaped (hfirst (congrArg some hb)) _
                · exact hcalm.1 hb
              rw [List.cons_append, shieldedFrom_plain hnone]
              refine ih _ (Nat.lt_succ_self _) hcalm.2 hothers (fun hlast => hdollar ?_) rfl
              rw [List.getLast?_cons, hlast]
              rfl
          | some found =>
              obtain ⟨kind, construct⟩ := found
              -- Only a dollar sign can begin a construct in a calm run.
              have hb : b = '$' := by
                by_contra hb
                have hsome := isSome_construct?_append rest (by rw [hfound]; rfl) hdollar
                rw [List.cons_append, hcalm.1 hb] at hsome
                cases hsome
              obtain ⟨body, inner, hrun, hbody, hconstruct⟩ := exists_body_of_construct? hfound
              have hhead : (body ++ inner).head? = some ('$' : UInt8) := by rw [← hrun, hb]; rfl
              rw [hconstruct, hrun] at hfound
              rw [hrun] at hcalm hstray hdollar ⊢
              rw [plainPlacesFrom_construct hbody hfound] at hstray
              rw [List.append_assoc, LeftContext.pushAll_append,
                shieldedFrom_construct hbody (construct?_dollar_append hfound hhead hbody hdollar)]
              have hbehind := ih inner.length ?_ hcalm.drop_append hstray ?_ rfl
              · exact hbehind.cons _
              · have hpos := List.length_pos_iff.mpr hbody
                rw [hrun, List.length_append]
                omega
              · intro hlast
                refine hdollar ?_
                cases inner with
                | nil => cases hlast
                | cons c tail => rwa [List.getLast?_append_of_ne_nil _ (List.cons_ne_nil _ _)]

end

/-! ## Boundaries -/

theorem head?_ne_of_dollarsMeet {first second : Text} (h : dollarsMeet first second = false)
    (hfirst : first.getLast? = some ('$' : UInt8)) : second.head? ≠ some ('$' : UInt8) := by
  simpa [dollarsMeet, hfirst] using h

theorem dollar_after (before : Text) :
    (LeftContext.after before).dollar = (before.getLast? == some ('$' : UInt8)) := by
  cases before with
  | nil => rfl
  | cons b rest => exact LeftContext.pushAll_dollar _ (List.cons_ne_nil b rest)

namespace Retags

variable {context : LeftContext} {before run source replaced : Text}

theorem dollar_pushAll (hrun : run ≠ []) (h : Retags source before run replaced)
    (hback : dollarsMeet replaced source = false) (hnext : source.head? = some ('$' : UInt8))
    (hfree : replaced = [] → context.dollar = false) :
    (context.pushAll replaced).dollar = (LeftContext.after (before ++ run)).dollar := by
  have hlast : replaced.getLast? ≠ some ('$' : UInt8) :=
    fun hlast => head?_ne_of_dollarsMeet hback hlast hnext
  have hafter : (LeftContext.after (before ++ run)).dollar = false := by
    rw [dollar_after, List.getLast?_append_of_ne_nil _ hrun, beq_eq_false_iff_ne]
    exact fun hdollar => hlast (h.getLast?_eq_dollar hdollar)
  rw [hafter]
  by_cases hnil : replaced = []
  · rw [hnil]
    exact hfree hnil
  · rw [LeftContext.pushAll_dollar _ hnil, beq_eq_false_iff_ne]
    exact hlast

theorem escaped_or_lineFeed (hrun : run ≠ []) (h : Retags source before run replaced)
    (hboundary : (LeftContext.after before).escaped = false ∨
      ∀ b, (run ++ source).head? = some b → b = ('\n' : UInt8))
    (hcontext : context.escaped = (LeftContext.after before).escaped) :
    context.escaped = false ∨ replaced.head? = some ('\n' : UInt8) := by
  rcases hboundary with hfalse | hline
  · exact .inl (hcontext.trans hfalse)
  · obtain ⟨b, rest, rfl⟩ := List.exists_cons_of_ne_nil hrun
    obtain rfl := hline b rfl
    rcases h.head?_eq_or with hsame | htag
    · exact .inr hsame.symm
    · exact absurd (Option.some.inj htag) (by decide)

end Retags

theorem head?_behind_plainRun {context : LeftContext} {before run source target : Text}
    (hplain : run = plainRun context (run ++ source)) (h : Retags [] before source target) :
    source.head? = target.head? := by
  rcases h.head?_eq_or with hsame | htag
  · exact hsame
  · obtain ⟨rest, rfl⟩ := List.head?_eq_some_iff.mp htag
    have hsome := isSome_construct?_behind hplain (List.cons_ne_nil _ rest)
    rw [construct?_eq_none_of_head (by decide) (by decide) (by decide)] at hsome
    cases hsome

/-! ## Regions behind regions -/

structure Keeps (before source target : Text) : Prop where
  apart : before.getLast? = some ('$' : UInt8) → source.head? ≠ some ('$' : UInt8) →
    target.head? ≠ some ('$' : UInt8)
  regions : ∀ context : LeftContext, context.escaped = (LeftContext.after before).escaped →
    (target.head? = some ('$' : UInt8) →
      context.dollar = (LeftContext.after before).dollar) →
        (shieldedFrom (.after before) source).Sublist (shieldedFrom context target)

namespace Keeps

variable {before source target : Text}

theorem refl (before source : Text) : Keeps before source source := by
  refine ⟨fun _ hhead => hhead, fun context hescaped hdollar => ?_⟩
  rw [shieldedFrom, shieldedFrom, regionsFrom_context (.inl hescaped) hdollar]

theorem construct {body : Text} {kind : RegionKind} {name : Text} (hbody : body ≠ [])
    (hfound : construct? (.after before) (body ++ source) = some (kind, ⟨body.length, name⟩))
    (h : Keeps (before ++ body) source target)
    (hretags : Retags [] (before ++ body) source target)
    (hdefinition : kind = .definition → Recognizer.definitionArguments? source = none →
      Recognizer.definitionArguments? target = none) :
    Keeps before (body ++ source) (body ++ target) := by
  have hagain : construct? (.after before) (body ++ target) =
      some (kind, ⟨body.length, name⟩) := by
    apply construct?_again_of_kind hfound
    · intro _ hline b hb
      rcases hretags.head?_eq_or with hsame | htag
      · exact hline b (hsame.trans hb)
      · exact absurd (hline _ htag) (by decide)
    · intro _ hlast hsource
      refine h.apart ?_ hsource
      rw [LeftContext.pushAll_dollar _ hbody, beq_iff_eq] at hlast
      rwa [List.getLast?_append_of_ne_nil _ hbody]
    · exact fun hkind _ => hdefinition hkind
  refine ⟨fun _ hhead => ?_, fun context hescaped hdollar => ?_⟩
  · rwa [List.head?_append_of_ne_nil _ hbody] at hhead ⊢
  · rw [← construct?_context hescaped fun hhead => LeftContext.eq_mk hescaped (hdollar hhead)]
      at hagain
    rw [shieldedFrom_construct hbody hagain, shieldedFrom_construct hbody hfound,
      LeftContext.pushAll_congr hbody hescaped, ← LeftContext.after_append]
    exact (h.regions _ rfl fun _ => rfl).cons_cons _

theorem plain {run replaced : Text} (hrun : run ≠ [])
    (hplain : run = plainRun (.after before) (run ++ source))
    (hboundary : (LeftContext.after before).escaped = false ∨
      ∀ b, (run ++ source).head? = some b → b = ('\n' : UInt8))
    (h : Keeps (before ++ run) source target) (hretags : Retags source before run replaced)
    (hbehind : Retags [] (before ++ run) source target)
    (hfront : dollarsMeet before (replaced ++ source) = false)
    (hback : dollarsMeet replaced source = false)
    (hdollars : source ≠ [] → HasNoStrayDollar replaced)
    (harguments : source ≠ [] → ∀ first b second, run = first ++ b :: second →
      beginsArguments (.after (before ++ first)) (b :: (second ++ source)) = false) :
    Keeps before (run ++ source) (replaced ++ target) := by
  have hhead := head?_behind_plainRun hplain hbehind
  have hheads : (replaced ++ source).head? = (replaced ++ target).head? := by
    rw [List.head?_append, List.head?_append, hhead]
  refine ⟨fun hlast _ => ?_, fun context hescaped hdollar => ?_⟩
  · rw [← hheads]
    exact head?_ne_of_dollarsMeet hfront hlast
  · rw [shieldedFrom_plainRun (.after before), ← hplain, List.drop_left, ← LeftContext.after_append]
    by_cases hsource : source = []
    · rw [hsource, shieldedFrom_nil]
      exact List.nil_sublist _
    have hfree : (replaced ++ target).head? = some ('$' : UInt8) → context.dollar = false := by
      intro hnext
      rw [hdollar hnext, dollar_after, beq_eq_false_iff_ne]
      intro hlast
      exact head?_ne_of_dollarsMeet hfront hlast (hheads.trans hnext)
    have hcalm : IsCalm context replaced target := by
      rw [← List.append_nil source] at hretags
      exact hretags.isCalm hbehind (.of_plainRun hplain) (harguments hsource) hescaped
    -- The regions behind are those behind the run, once the run itself brings none.
    have hscan := hcalm.sublist_shieldedFrom (fun place => ?_) fun hlast => ?_
    · refine (h.regions _ (hretags.escaped_pushAll hescaped) fun hnext => ?_).trans hscan
      rw [← hhead] at hnext
      refine hretags.dollar_pushAll hrun hback hnext fun hnil => hfree ?_
      rw [hnil]
      exact hhead.symm.trans hnext
    · refine escaped_of_hasNoStrayDollar (hdollars hsource) ?_ fun hnext => hfree ?_
      · exact hretags.escaped_or_lineFeed hrun hboundary hescaped
      · rw [List.head?_append, hnext, Option.some_or]
    · rw [← hhead]
      exact head?_ne_of_dollarsMeet hback hlast

end Keeps

/-! ## From the end of a text to its start -/

section

variable {before body rest : Text} {kind : RegionKind} {name : Text}

theorem retags_behind (htext : before ++ rest = text) (hclear : TagsStandClear text) :
    Retags [] before rest (taglessFrom text before.length) := by
  subst htext
  have hretags := @retags_taglessFrom _ hclear before.length (by simp)
  rwa [List.take_left, List.drop_left] at hretags

theorem taglessFrom_append
    (hspan : ⟨before.length, before.length + body.length, kind, name⟩ ∈ segment text) :
    taglessFrom text before.length =
      taglessSpan text ⟨before.length, before.length + body.length, kind, name⟩ ++
        taglessFrom text (before ++ body).length := by
  rw [List.length_append]
  exact taglessFrom_start hspan

theorem StaysPlain.beginsArguments_eq_false
    (h : StaysPlain (before ++ (body ++ rest))
      ⟨before.length, before.length + body.length, kind, name⟩) (hrest : rest ≠ [])
    {first second : Text} {b : UInt8} (hbody : body = first ++ b :: second) :
    beginsArguments (.after (before ++ first)) (b :: (second ++ rest)) = false := by
  subst hbody
  have hpos := List.length_pos_iff.mpr hrest
  have hplace := h.arguments (by simp; omega)
    (.of (before ++ (first ++ b :: second ++ rest)) (before.length + first.length)) ?_
  · rw [BytePlace.of_append, List.append_assoc, List.take_left, List.drop_left] at hplace
    rwa [LeftContext.after_append]
  · refine List.mem_map.mpr ⟨before.length + first.length, ?_, rfl⟩
    simp [List.mem_range']

theorem keeps_taglessFrom_construct (htext : before ++ (body ++ rest) = text)
    (hclear : TagsStandClear text)
    (hspan : ⟨before.length, before.length + body.length, kind, name⟩ ∈ segment text)
    (hbody : body ≠ [])
    (hfound : construct? (.after before) (body ++ rest) = some (kind, ⟨body.length, name⟩))
    (h : Keeps (before ++ body) rest (taglessFrom text (before ++ body).length)) :
    Keeps before (body ++ rest) (taglessFrom text before.length) := by
  have hretags := retags_behind ((List.append_assoc _ _ _).trans htext) hclear
  have hdefinition := hclear.definitions _ hspan
  rw [taglessFrom_append hspan, taglessSpan_eq_slice hspan (construct?_spec hfound).1]
  subst htext
  rw [Text.slice_middle]
  refine .construct hbody hfound h hretags fun hkind => ?_
  have hbehind := hdefinition hkind
  rw [List.drop_length_add_append, List.drop_left, ← List.length_append] at hbehind
  exact hbehind

theorem keeps_taglessFrom_plain (htext : before ++ (body ++ rest) = text)
    (hclear : TagsStandClear text)
    (hspan : ⟨before.length, before.length + body.length, .plain, name⟩ ∈ segment text)
    (hbody : body ≠ []) (hplain : body = plainRun (.after before) (body ++ rest))
    (hboundary : (LeftContext.after before).escaped = false ∨
      ∀ b, (body ++ rest).head? = some b → b = ('\n' : UInt8))
    (h : Keeps (before ++ body) rest (taglessFrom text (before ++ body).length)) :
    Keeps before (body ++ rest) (taglessFrom text before.length) := by
  have hbehind := retags_behind ((List.append_assoc _ _ _).trans htext) hclear
  by_cases htags : ∃ edit ∈ tagEdits text, before.length ≤ edit.offset
  · have hstays := hclear.plain _ hspan rfl htags
    have hretags := retags_taglessSpan hclear hspan
    have hfront := hstays.front
    have hback := hstays.back
    rw [taglessFrom_append hspan]
    subst htext
    simp only [List.take_left, Text.slice_middle, List.drop_length_add_append, List.drop_left]
      at hretags hfront hback
    refine .plain hbody hplain hboundary h hretags hbehind hfront hback (fun hrest => ?_) ?_
    · have hpos := List.length_pos_iff.mpr hrest
      exact hstays.dollars (by simp; omega)
    · exact fun hrest _ _ _ hsplit => hstays.beginsArguments_eq_false hrest hsplit
  · -- Neither here nor behind this span is a tag.
    rw [taglessFrom_of_forall, ← htext, List.drop_left]
    · exact .refl _ _
    · intro edit hedit
      by_contra hle
      exact htags ⟨edit, hedit, Nat.le_of_not_lt hle⟩

end

theorem keeps_taglessFrom (hclear : TagsStandClear text) :
    Keeps [] text (taglessFrom text 0) := by
  refine @Region.spans_induction (fun before rest spans => before ++ rest = text →
    (∀ span ∈ spans, span ∈ segment text) →
      ((LeftContext.after before).escaped = false ∨
        ∀ b, rest.head? = some b → b = ('\n' : UInt8)) →
          Keeps before rest (taglessFrom text before.length)) ?_ ?_ ?_ [] text rfl
            (fun _ hspan => hspan) (.inl rfl)
  · intro before htext _ _
    rw [(retags_behind htext hclear).target_eq_nil]
    exact .refl before []
  · intro before body rest kind name spans hbody hfound ih htext hspans _
    obtain ⟨hspan, hspans⟩ := List.forall_mem_cons.mp hspans
    refine keeps_taglessFrom_construct htext hclear hspan hbody hfound (ih ?_ hspans ?_)
    · rw [List.append_assoc, htext]
    · rw [LeftContext.after_append]
      exact escaped_behind_construct? hfound
  · intro before run rest spans hrun hplain ih htext hspans hboundary
    obtain ⟨hspan, hspans⟩ := List.forall_mem_cons.mp hspans
    refine keeps_taglessFrom_plain htext hclear hspan hrun hplain hboundary (ih ?_ hspans ?_)
    · rw [List.append_assoc, htext]
    · rw [LeftContext.after_append]
      exact escaped_behind_plainRun hplain

/--
Replacing tags keeps the shielded regions of a text, if no control sequence goes on where a tag
stood, no arguments begin in plain text, and no dollar signs meet or are left over.
-/
theorem replaceTags_keepsShieldedRegions (text : Text) (hclear : TagsStandClear text) :
    (shieldedRegions text).Sublist (shieldedRegions (replaceTags text).1) := by
  have hsublist := (keeps_taglessFrom hclear).regions .initial rfl fun _ => rfl
  rw [shieldedRegions_eq, shieldedRegions_eq, ← taglessFrom_zero]
  exact hsublist

theorem replaceTags_keepsShieldedRegions_mixed :
    (shieldedRegions "$x$ H<sub>2</sub>O <b>\\cite\x7bk\x7d</b><br>\\(<p>\\)<p>% <i>").Sublist
      (shieldedRegions
        (replaceTags "$x$ H<sub>2</sub>O <b>\\cite\x7bk\x7d</b><br>\\(<p>\\)<p>% <i>").1) :=
  replaceTags_keepsShieldedRegions _ (by decide +kernel)

/-- The dollar sign that a tag becomes merges with the formula in front of it. -/
example : ¬(shieldedRegions "$x$<sub>2</sub>").Sublist
    (shieldedRegions (replaceTags "$x$<sub>2</sub>").1) := by
  rw [replaceTags_eq_splice]
  decide +kernel

/-- A deleted tag kept two formulas apart. -/
example : ¬(shieldedRegions "$x$</p>$y$").Sublist
    (shieldedRegions (replaceTags "$x$</p>$y$").1) := by
  rw [replaceTags_eq_splice]
  decide +kernel

/-- The brace that a tag becomes closes an argument behind a formula. -/
example : ¬(shieldedRegions "\\cite\x7b $x$ <b>y</b>").Sublist
    (shieldedRegions (replaceTags "\\cite\x7b $x$ <b>y</b>").1) := by
  rw [replaceTags_eq_splice]
  decide +kernel

end LatexIntegrity.Repair
