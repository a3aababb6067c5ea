import LatexIntegrity.Proofs.Repair.FigureLines
import LatexIntegrity.Proofs.Repair.MarkedRegions

/-!
# Figures of a text whose lines are commented out

A marker makes no command out of bytes that are none, and it does not change the commands of
other lines.  If all commands end on the lines where they begin, they do so with the markers.
-/

namespace LatexIntegrity

variable {marker source target : Text}

namespace Group

theorem body_eq_nil_iff {text : Text} {length : Nat} (h : argument? text = some length) :
    body length text = [] ↔ ∃ rest, text = ('{' : UInt8) :: ('}' : UInt8) :: rest := by
  constructor
  · intro hbody
    obtain ⟨inner, hinner, -⟩ := isFlat_of_flat? h
    have hlength := congrArg List.length hinner
    rw [List.length_take_of_le ((flat?_isLocal '{' '}').fits h), List.length_cons,
      List.length_append, List.length_singleton] at hlength
    have htext := List.take_append_drop length text
    rw [hinner] at htext
    rw [← htext, hlength, body] at hbody
    obtain rfl : inner = [] := by simpa using hbody
    exact ⟨text.drop length, htext.symm⟩
  · rintro ⟨rest, rfl⟩
    have htwo : argument? (('{' : UInt8) :: ('}' : UInt8) :: rest) = some 2 := rfl
    obtain rfl := Option.some.inj (htwo.symm.trans h)
    rfl

theorem body_ne_nil_of_marked (hmarker : IsPlainMarker marker)
    (h : IsMarked marker source target) {length length' : Nat}
    (htarget : argument? target = some length) (hsource : argument? source = some length')
    (hbody : body length target ≠ []) : body length' source ≠ [] := by
  rw [Ne, body_eq_nil_iff hsource]
  rw [Ne, body_eq_nil_iff htarget] at hbody
  rintro ⟨rest, hrest⟩
  cases h with
  | same => exact hbody ⟨rest, hrest⟩
  | @insert before behind hline =>
      have hbrace := head?_of_flat?_eq_some htarget
      cases before with
      | nil =>
          rw [List.nil_append, List.head?_append_of_ne_nil _ hmarker.ne_nil, hmarker.head]
            at hbrace
          revert hbrace
          decide
      | cons b before =>
          obtain ⟨rfl, hinside⟩ := List.cons.inj hrest
          cases before with
          | nil => exact absurd (hline _ rfl) (by decide)
          | cons c before =>
              obtain ⟨rfl, -⟩ := List.cons.inj hinside
              exact hbody ⟨_, rfl⟩

end Group

namespace Repair.FigureReference

theorem options?_of_marked (hmarker : IsPlainMarker marker) (h : IsMarked marker source target)
    {options argument : Nat} (hoptions : options? target = some options)
    (hargument : Group.argument? (target.drop options) = some argument) :
    ∃ options', options? source = some options' ∧
      IsMarked marker (source.drop options') (target.drop options) := by
  by_cases hbracket : target.head? = some ('[' : UInt8)
  · have hhead := h.head?_eq hmarker (by rw [hbracket]; decide)
    rw [options?, if_pos hbracket] at hoptions
    rw [options?, if_pos (hhead.trans hbracket)]
    exact (Group.flat?_skipsMarkers hmarker (by decide) (by decide)).skip h hoptions
  · rw [options?, if_neg hbracket] at hoptions
    cases hoptions
    have hbrace : target.head? = some ('{' : UInt8) := Group.head?_of_flat?_eq_some hargument
    have hhead := h.head?_eq hmarker (by rw [hbrace]; decide)
    rw [options?, if_neg (by rw [hhead]; exact hbracket)]
    exact ⟨0, rfl, h⟩

theorem isSome_read?_of_marked (hmarker : IsPlainMarker marker) {context : LeftContext}
    (h : IsMarked marker source target) (hread : (read? context target).isSome = true) :
    (read? context source).isSome = true := by
  obtain ⟨⟨path, length⟩, hfound⟩ := Option.isSome_iff_exists.mp hread
  obtain ⟨hescaped, hword, options, argument, hoptions, hargument, rfl, hne, rfl⟩ :=
    read?_eq_some_iff.mp hfound
  have hhead := head?_eq_of_controlWord_ne_nil
    (show controlWord target ≠ [] by rw [hword]; decide)
  obtain ⟨hsame, hafter⟩ := h.controlWord hmarker hhead
  obtain ⟨options', hoptions', hrest⟩ := options?_of_marked hmarker hafter hoptions hargument
  obtain ⟨argument', hargument', -⟩ :=
    (Group.flat?_skipsMarkers hmarker (by decide) (by decide)).skip hrest hargument
  have hbody := Group.body_ne_nil_of_marked hmarker hrest hargument hargument' hne
  rw [read?_eq_some_iff.mpr ⟨hescaped, hsame.symm.trans hword, options', argument', hoptions',
    hargument', rfl, hbody, rfl⟩]
  rfl

theorem isSome_read?_of_marks (hmarker : IsPlainMarker marker) {context : LeftContext}
    (h : Relation.ReflTransGen (IsMarked marker) source target)
    (hread : (read? context target).isSome = true) : (read? context source).isSome = true := by
  induction h with
  | refl => exact hread
  | tail _ hmarked ih => exact ih (isSome_read?_of_marked hmarker hmarked hread)

end Repair.FigureReference

/-! ## Markers in front of several lines -/

theorem IsMarked.append_feed (h : IsMarked marker source target) (line : Text) :
    IsMarked marker (line ++ ('\n' : UInt8) :: source) (line ++ ('\n' : UInt8) :: target) := by
  cases h with
  | same => exact .same _
  | @insert before behind hline =>
      have hbefore : Text.EndsLine (line ++ ('\n' : UInt8) :: before) := by
        intro b hb
        rw [List.getLast?_append_of_ne_nil _ (List.cons_ne_nil _ _)] at hb
        cases hrest : before.getLast? with
        | none =>
            rw [List.getLast?_eq_none_iff.mp hrest] at hb
            exact (Option.some.inj hb).symm
        | some last =>
            rw [List.getLast?_cons, hrest] at hb
            exact Option.some.inj hb ▸ hline last hrest
      have hmarked := @IsMarked.insert marker _ behind hbefore
      simpa using hmarked

namespace ClassedText

def IsMarkedLine (marker : Text) (line target : ClassedText) : Prop :=
  target = line ∨ target = markLine marker line

/-- The items of a text, and those of the text with markers in front of some lines. -/
inductive HasMarks (marker : Text) : ClassedText → ClassedText → Prop
  | last {line target : ClassedText} : (∀ item ∈ line, isFeed item = false) →
      IsMarkedLine marker line target → HasMarks marker line target
  | line {line target rest rest' : ClassedText} {feed feed' : UInt8 × ByteClass} :
      (∀ item ∈ line, isFeed item = false) → isFeed feed = true → isFeed feed' = true →
        IsMarkedLine marker line target → HasMarks marker rest rest' →
          HasMarks marker (line ++ feed :: rest) (target ++ feed' :: rest')

variable {items items' line target first rest rest' : ClassedText} {context : LeftContext}
  {feed feed' : UInt8 × ByteClass} {covered : Nat}

theorem hasMarks_of_forall₂ (h : List.Forall₂ (IsMarkedLine marker) (items.splitOnP isFeed)
    (items'.splitOnP isFeed)) : HasMarks marker items items' := by
  induction items using Text.induction_lines isFeed generalizing items' with
  | last line hline =>
      rw [List.splitOnP_eq_singleton hline] at h
      induction items' using Text.induction_lines isFeed with
      | last target htarget =>
          rw [List.splitOnP_eq_singleton htarget] at h
          obtain ⟨hmarked, -⟩ := List.forall₂_cons.mp h
          exact .last hline hmarked
      | line target feed' rest' htarget hfeed' =>
          rw [Text.splitOnP_line_append htarget hfeed'] at h
          obtain ⟨-, hrest⟩ := List.forall₂_cons.mp h
          cases hlines : rest'.splitOnP isFeed with
          | nil => exact absurd hlines (List.splitOnP_ne_nil _ _)
          | cons => rw [hlines] at hrest; cases hrest
  | line line feed rest hline hfeed ih =>
      rw [Text.splitOnP_line_append hline hfeed] at h
      induction items' using Text.induction_lines isFeed with
      | last target htarget =>
          rw [List.splitOnP_eq_singleton htarget] at h
          obtain ⟨-, hrest⟩ := List.forall₂_cons.mp h
          cases hlines : rest.splitOnP isFeed with
          | nil => exact absurd hlines (List.splitOnP_ne_nil _ _)
          | cons => rw [hlines] at hrest; cases hrest
      | line target feed' rest' htarget hfeed' =>
          rw [Text.splitOnP_line_append htarget hfeed'] at h
          obtain ⟨hmarked, hrest⟩ := List.forall₂_cons.mp h
          exact .line hline hfeed hfeed' hmarked (ih hrest)

theorem IsMarkedLine.isMarked (h : IsMarkedLine marker line target) (behind : Text) :
    IsMarked marker (line.bytes ++ behind) (target.bytes ++ behind) := by
  rcases h with rfl | rfl
  · exact .same _
  · rw [bytes_markLine, List.append_assoc]
    exact @IsMarked.insert marker [] _ fun b hb => nomatch hb

theorem marks_line (hfeed : isFeed feed = true) (hfeed' : isFeed feed' = true)
    (h : Relation.ReflTransGen (IsMarked marker) rest.bytes rest'.bytes) (line : ClassedText) :
    Relation.ReflTransGen (IsMarked marker) (bytes (line ++ feed :: rest))
      (bytes (line ++ feed' :: rest')) := by
  have hbyte : feed.1 = ('\n' : UInt8) := beq_iff_eq.mp hfeed
  have hbyte' : feed'.1 = ('\n' : UInt8) := beq_iff_eq.mp hfeed'
  rw [bytes_append, bytes_append, bytes_cons, bytes_cons, hbyte, hbyte']
  exact h.lift (bytes line ++ ('\n' : UInt8) :: ·) fun _ _ h => h.append_feed _

theorem HasMarks.marks (h : HasMarks marker items items') :
    Relation.ReflTransGen (IsMarked marker) items.bytes items'.bytes := by
  induction h with
  | last _ hmarked =>
      have hline := hmarked.isMarked []
      rw [List.append_nil, List.append_nil] at hline
      exact .single hline
  | @line line target rest rest' feed feed' hline hfeed hfeed' hmarked _ ih =>
      refine .tail (marks_line hfeed hfeed' ih line) ?_
      rw [bytes_append, bytes_append]
      exact hmarked.isMarked _

/-! ## Commands that end on their lines -/

theorem figuresEndOnLines_append
    (h : ∀ item ∈ first, item.2.isEligible = true → item.1 ≠ ('\\' : UInt8)) :
    FiguresEndOnLines 0 context (first ++ rest) ↔
      FiguresEndOnLines 0 (context.pushAll first.bytes) rest := by
  induction first generalizing context with
  | nil => rfl
  | cons item first ih =>
      obtain ⟨hitem, hfirst⟩ := List.forall_mem_cons.mp h
      have hnone : figure? context (item :: (first ++ rest)) = none := by
        refine Option.eq_none_iff_forall_ne_some.mpr fun found hfound => ?_
        have hhead := Option.some.inj (head?_of_figure? hfound)
        exact hitem (figure?_eq_some_iff.mp hfound).1 hhead
      rw [List.cons_append, FiguresEndOnLines, hnone]
      exact ih hfirst

theorem figure?_marks (hmarker : IsPlainMarker marker) (hfeed : isFeed feed = true)
    (hfeed' : isFeed feed' = true)
    (hmarks : Relation.ReflTransGen (IsMarked marker) rest.bytes rest'.bytes)
    (h : FiguresEndOnLines 0 context (line ++ feed :: rest)) :
    figure? context (line ++ feed' :: rest') = figure? context (line ++ feed :: rest) := by
  cases line with
  | nil => exact (figure?_of_isFeed hfeed').trans (figure?_of_isFeed hfeed).symm
  | cons item line =>
      have hsame := figure?_line hfeed h
      rw [hsame]
      cases hread : figure? context (item :: line) with
      | some found => exact (figure?_append (length_le_of_figure? hread).2 _).mpr hread
      | none =>
          rw [hread] at hsame
          refine Option.eq_none_iff_forall_ne_some.mpr fun found hfound => ?_
          obtain ⟨heligible, hread'⟩ := Option.ite_none_right_eq_some.mp hfound
          have hsome := Repair.FigureReference.isSome_read?_of_marks hmarker
            (marks_line hfeed hfeed' hmarks (item :: line)) (Option.isSome_of_eq_some hread')
          have hsome' : (figure? context (item :: line ++ feed :: rest)).isSome = true :=
            (congrArg Option.isSome (if_pos heligible)).trans hsome
          rw [hsame] at hsome'
          cases hsome'

theorem figuresEndOnLines_marks (hmarker : IsPlainMarker marker)
    (hline : ∀ item ∈ line, isFeed item = false) (hfeed : isFeed feed = true)
    (hfeed' : isFeed feed' = true)
    (hmarks : Relation.ReflTransGen (IsMarked marker) rest.bytes rest'.bytes)
    (hrest' : FiguresEndOnLines 0 .initial rest')
    (h : FiguresEndOnLines covered context (line ++ feed :: rest)) :
    FiguresEndOnLines covered context (line ++ feed' :: rest') := by
  induction line generalizing covered context with
  | nil =>
      obtain rfl : covered = 0 := Nat.le_zero.mp (covered_le hfeed h)
      exact (figuresEndOnLines_feed hfeed').mpr hrest'
  | cons item line ih =>
      obtain ⟨hitem, hline⟩ := List.forall_mem_cons.mp hline
      cases covered with
      | succ covered => exact ⟨hitem, ih hline h.2⟩
      | zero =>
          have hsame := figure?_marks hmarker hfeed hfeed' hmarks h
          rw [List.cons_append] at h hsame ⊢
          rw [FiguresEndOnLines] at h ⊢
          rw [List.cons_append] at hsame
          rw [hsame]
          cases hread : figure? context (item :: (line ++ feed :: rest)) with
          | none =>
              rw [hread] at h
              exact ih hline h
          | some found =>
              rw [hread] at h
              exact ih hline h

theorem figuresEndOnLines_markLine (hmarker : IsPlainMarker marker)
    (hbehind : ∀ context, FiguresEndOnLines 0 context rest)
    (h : FiguresEndOnLines 0 .initial (line ++ rest)) :
    FiguresEndOnLines 0 .initial (markLine marker line ++ rest) := by
  have hcomment : ∀ body, ∀ item ∈ Region.classed ⟨.comment, [], body⟩,
      item.2.isEligible = true → item.1 ≠ ('\\' : UInt8) := by
    intro body item hitem heligible
    obtain ⟨index, hindex, rfl⟩ := List.mem_mapIdx.mp hitem
    cases heligible
  cases line with
  | nil => exact (figuresEndOnLines_append (hcomment marker)).mpr (hbehind _)
  | cons item line =>
      rw [markLine]
      split
      · exact (figuresEndOnLines_append (hcomment _)).mpr (hbehind _)
      · have hbytes : bytes (marker.map (·, item.2)) = marker := by simp [bytes, Function.comp_def]
        rw [List.append_assoc, figuresEndOnLines_append, hbytes, hmarker.pushAll]
        · exact h
        · intro other hother _
          obtain ⟨b, hb, rfl⟩ := List.mem_map.mp hother
          exact hmarker.ne hb (by decide)

theorem HasMarks.figuresEndOnLines (hmarker : IsPlainMarker marker)
    (h : HasMarks marker items items') (hends : FiguresEndOnLines 0 .initial items) :
    FiguresEndOnLines 0 .initial items' := by
  induction h with
  | @last line target hline hmarked =>
      rcases hmarked with rfl | rfl
      · exact hends
      · have hmarkedLine := @figuresEndOnLines_markLine marker line [] hmarker
          (fun _ => trivial) (by rwa [List.append_nil])
        rwa [List.append_nil] at hmarkedLine
  | @line line target rest rest' feed feed' hline hfeed hfeed' hmarked hrest ih =>
      have hrest' := ih (figuresFrom_line 0 hline hfeed hends).2
      have hsame := figuresEndOnLines_marks hmarker hline hfeed hfeed' hrest.marks hrest' hends
      rcases hmarked with rfl | rfl
      · exact hsame
      · exact figuresEndOnLines_markLine hmarker
          (fun _ => (figuresEndOnLines_feed hfeed').mpr hrest') hsame

end ClassedText

end LatexIntegrity
