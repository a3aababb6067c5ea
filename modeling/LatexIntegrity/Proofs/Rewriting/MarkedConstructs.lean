import LatexIntegrity.Proofs.Rewriting.Constructs
import LatexIntegrity.Proofs.Rewriting.Markers

/-!
# Constructs around a marker

A marker in front of a line takes part in no construct that begins before this line.  It
brings none there, and an environment that goes on behind the marker is only made longer.
-/

namespace LatexIntegrity

open Text (EndsLine IsUnbroken)

variable {marker before behind : Text} {context : LeftContext}

theorem Text.EndsLine.pushAll (hline : EndsLine before) (hne : before ≠ []) :
    context.pushAll before = .initial := by
  have hlast := hline _ (List.getLast?_eq_some_getLast hne)
  rw [← List.dropLast_append_getLast hne, hlast, LeftContext.pushAll_append]
  rfl

/-! ## Control words -/

theorem Text.EndsLine.afterControlWord_ne_nil (hline : EndsLine before)
    (hhead : before.head? = some ('\\' : UInt8)) : afterControlWord before ≠ [] := by
  intro hnil
  have hsplit := eq_cons_controlWord_append hhead
  have hfeed : ('\n' : UInt8) ∈ before := hline.mem (by rintro rfl; cases hhead)
  rw [hnil, List.append_nil] at hsplit
  rw [hsplit, List.mem_cons] at hfeed
  rcases hfeed with hfeed | hfeed
  · revert hfeed
    decide
  · have hletter := isLetter_of_mem_controlWord hfeed
    revert hletter
    decide

theorem IsMarked.controlWord {source target : Text} (h : IsMarked marker source target)
    (hmarker : IsPlainMarker marker) (hhead : target.head? = some ('\\' : UInt8)) :
    LatexIntegrity.controlWord target = LatexIntegrity.controlWord source ∧
      IsMarked marker (afterControlWord source) (afterControlWord target) := by
  cases h with
  | same => exact ⟨rfl, .same _⟩
  | @insert before behind hline =>
      have hne : before ≠ [] := by
        rintro rfl
        rw [List.nil_append, List.head?_append_of_ne_nil _ hmarker.ne_nil, hmarker.head] at hhead
        revert hhead
        decide
      rw [List.head?_append_of_ne_nil _ hne] at hhead
      have hafter := hline.afterControlWord_ne_nil hhead
      obtain ⟨hword, hrest⟩ := controlWord_append hhead hafter behind
      obtain ⟨hword', hrest'⟩ := controlWord_append hhead hafter (marker ++ behind)
      rw [hword, hword', hrest, hrest']
      exact ⟨rfl, .insert (hline.drop _)⟩

theorem IsMarked.dropWhile {source target : Text} (h : IsMarked marker source target)
    {p : UInt8 → Bool} (hmarker : ∀ b ∈ marker, p b = true) :
    IsMarked marker (source.dropWhile p) (target.dropWhile p) := by
  cases h with
  | same => exact .same _
  | @insert before behind hline =>
      rw [List.dropWhile_append, List.dropWhile_append]
      split
      · rw [List.dropWhile_append_of_pos hmarker]
        exact .same _
      · rw [← before.takeWhile_append_dropWhile (p := p)] at hline
        exact .insert hline.suffix

/-! ## Searches -/

theorem distance?_marked {p : LeftContext → Text → Bool} (hmarker : IsPlainMarker marker)
    (hline : EndsLine before) (hcontext : context.pushAll before = .initial)
    (hskip : ∀ context suffix, suffix <:+ marker → suffix ≠ [] →
      p context (suffix ++ behind) = false)
    (hsame : ∀ context suffix, EndsLine suffix → suffix ≠ [] →
      p context (suffix ++ (marker ++ behind)) = p context (suffix ++ behind)) :
    distance? p context (before ++ (marker ++ behind)) =
      (distance? p context (before ++ behind)).map fun distance =>
        if distance < before.length then distance else distance + marker.length := by
  induction before generalizing context with
  | nil =>
      rw [LeftContext.pushAll_nil] at hcontext
      rw [List.nil_append, List.nil_append, distance?_skip hskip, hmarker.pushAll, hcontext]
      rfl
  | cons b rest ih =>
      have hhere := hsame context (b :: rest) hline (List.cons_ne_nil b rest)
      rw [List.cons_append, List.cons_append] at hhere ⊢
      rw [distance?, distance?, hhere]
      split
      · rfl
      · rw [ih (hline.drop 1) hcontext, Option.map_map, Option.map_map]
        congr 1
        funext distance
        simp only [Function.comp_apply, List.length_cons]
        split <;> split <;> omega

/-- What opens or closes a construct: a marker holds no first byte of it, and it is on a line. -/
structure IsFence (token : Text) : Prop where
  head : ∃ b rest, token = b :: rest ∧ isQuiet b = false
  unbroken : token.IsUnbroken

namespace IsFence

variable {token : Text}

theorem ne_nil (h : IsFence token) : token ≠ [] := by
  obtain ⟨b, rest, rfl, -⟩ := h.head
  exact List.cons_ne_nil b rest

theorem pair {first second : UInt8} (hfirst : isQuiet first = false) (hfirst' : first ≠ '\n')
    (hsecond : second ≠ '\n') : IsFence [first, second] :=
  ⟨⟨first, [second], rfl, hfirst⟩,
    Text.isUnbroken_cons.mpr ⟨hfirst', Text.isUnbroken_cons.mpr ⟨hsecond, Text.isUnbroken_nil⟩⟩⟩

theorem source {token : DelimiterToken} (hname : Environment.IsName token.name) :
    IsFence token.source := by
  have htail := DelimiterToken.not_mem_tail_source hname (b := '\n') (by decide)
  rw [DelimiterToken.source_eq_cons] at htail ⊢
  exact ⟨⟨_, _, rfl, by decide⟩, Text.isUnbroken_cons.mpr ⟨by decide, htail⟩⟩

theorem distance? (htoken : IsFence token) (hmarker : IsPlainMarker marker)
    (hline : EndsLine before) (hcontext : context.pushAll before = .initial) :
    unescapedDistance? token context (before ++ (marker ++ behind)) =
      (unescapedDistance? token context (before ++ behind)).map fun distance =>
        if distance < before.length then distance else distance + marker.length := by
  refine distance?_marked hmarker hline hcontext ?_ ?_
  · intro context suffix hsuffix hne
    obtain ⟨b, rest, rfl, hb⟩ := htoken.head
    obtain ⟨first, others, rfl⟩ := List.exists_cons_of_ne_nil hne
    have hfirst := hmarker.ne (hsuffix.subset List.mem_cons_self) hb
    rw [List.cons_append, List.isPrefixOf, beq_false_of_ne hfirst.symm, Bool.false_and,
      Bool.and_false]
  · intro context suffix hsuffix hne
    rw [Bool.eq_iff_iff, Bool.and_eq_true, Bool.and_eq_true, List.isPrefixOf_iff_prefix,
      List.isPrefixOf_iff_prefix, hsuffix.prefix_append_iff hne htoken.unbroken,
      hsuffix.prefix_append_iff hne htoken.unbroken]

end IsFence

namespace Recognizer

theorem distance?_isLoneDollar_marked (hmarker : IsPlainMarker marker) (hline : EndsLine before)
    (hcontext : context.pushAll before = .initial) :
    distance? isLoneDollar context (before ++ (marker ++ behind)) =
      (distance? isLoneDollar context (before ++ behind)).map fun distance =>
        if distance < before.length then distance else distance + marker.length := by
  refine distance?_marked hmarker hline hcontext ?_ ?_
  · intro context suffix hsuffix hne
    obtain ⟨first, others, rfl⟩ := List.exists_cons_of_ne_nil hne
    have hfirst : first ≠ ('$' : UInt8) :=
      hmarker.ne (hsuffix.subset List.mem_cons_self) (by decide)
    simp [isLoneDollar, hfirst]
  · intro context suffix hsuffix hne
    obtain ⟨first, others, rfl⟩ := List.exists_cons_of_ne_nil hne
    cases others with
    | nil =>
        obtain rfl := hsuffix first rfl
        rfl
    | cons second others => exact isLoneDollar_congr rfl

/-! ## Recognizers -/

variable {construct : Construct}

theorem isSome_fenced_of_marked {opener closer : Text} (hmarker : IsPlainMarker marker)
    (hopener : IsFence opener) (hcloser : IsFence closer) (hline : EndsLine before)
    (hne : before ≠ [])
    (h : fenced opener closer context (before ++ (marker ++ behind)) = some construct) :
    (fenced opener closer context (before ++ behind)).isSome = true := by
  obtain ⟨hescaped, hstarts, distance, hdistance, -⟩ := fenced_eq_some_iff.mp h
  obtain ⟨inner, rfl⟩ := (hline.prefix_append_iff hne hopener.unbroken _).mp hstarts
  have hinner : inner ≠ [] := by
    rintro rfl
    rw [List.append_nil] at hline hne
    exact hopener.unbroken (hline.mem hne)
  rw [List.append_assoc, List.drop_left,
    hcloser.distance? hmarker hline.suffix (hline.suffix.pushAll hinner)] at hdistance
  obtain ⟨distance', hdistance', -⟩ := Option.map_eq_some_iff.mp hdistance
  rw [fenced_eq_some_iff.mpr ⟨hescaped, by rw [List.append_assoc]; exact List.prefix_append _ _,
    distance', by rwa [List.append_assoc, List.drop_left], rfl⟩]
  rfl

theorem isSome_environment_of_marked (hmarker : IsPlainMarker marker) (hline : EndsLine before)
    (hne : before ≠ [])
    (h : environment context (before ++ (marker ++ behind)) = some construct) :
    (environment context (before ++ behind)).isSome = true := by
  obtain ⟨hname, hfenced⟩ := environment_eq_some_iff.mp h
  have hvalid := isName_of_isShieldedEnvironment hname
  obtain ⟨found, hfound⟩ := Option.isSome_iff_exists.mp (isSome_fenced_of_marked hmarker
    (.source hvalid) (.source hvalid) hline hne hfenced)
  obtain ⟨-, -, distance, -, rfl⟩ := fenced_eq_some_iff.mp hfound
  rw [environment_of_fenced hname hfound]
  rfl

theorem isSome_inlineMath_of_marked (hmarker : IsPlainMarker marker) (hline : EndsLine before)
    (hne : before ≠ [])
    (h : inlineMath context (before ++ (marker ++ behind)) = some construct) :
    (inlineMath context (before ++ behind)).isSome = true := by
  obtain ⟨b, rest, htext, hlone, distance, hdistance, -⟩ := inlineMath_eq_some_iff.mp h
  obtain ⟨first, inner, rfl⟩ := List.exists_cons_of_ne_nil hne
  rw [List.cons_append] at htext
  obtain ⟨rfl, rfl⟩ := List.cons.inj htext
  have hdollar : first = ('$' : UInt8) := by
    simp only [List.cons_append, isLoneDollar, Bool.and_eq_true, beq_iff_eq] at hlone
    exact hlone.1.1.1
  have hinner : inner ≠ [] := by
    rintro rfl
    rw [hline first rfl] at hdollar
    revert hdollar
    decide
  have hrest : EndsLine inner := hline.drop 1
  rw [distance?_isLoneDollar_marked hmarker hrest (hrest.pushAll hinner)] at hdistance
  obtain ⟨distance', hdistance', -⟩ := Option.map_eq_some_iff.mp hdistance
  rw [List.cons_append, inlineMath_eq_some_iff.mpr
    ⟨first, inner ++ behind, rfl, ?_, distance', hdistance', rfl⟩]
  · rfl
  · rw [← hlone, List.cons_append]
    refine isLoneDollar_congr ?_
    rw [List.head?_append_of_ne_nil _ hinner, List.head?_append_of_ne_nil _ hinner]

variable {source target : Text}

theorem starLength_of_marked (hmarker : IsPlainMarker marker) (h : IsMarked marker source target)
    (hsome : (definitionArguments? (target.drop (starLength target))).isSome = true) :
    starLength source = starLength target ∧
      IsMarked marker (source.drop (starLength source)) (target.drop (starLength target)) := by
  by_cases hstar : target.head? = some ('*' : UInt8)
  · obtain ⟨rest, rfl⟩ := List.head?_eq_some_iff.mp hstar
    obtain ⟨rest', rfl, hrest⟩ := h.exists_cons hmarker rfl (by decide)
    exact ⟨rfl, hrest⟩
  · have hzero : starLength target = 0 := if_neg hstar
    rw [hzero, List.drop_zero] at hsome
    -- Arguments of a definition do not begin like a marker.
    have hhead : target.head? ≠ some ('%' : UInt8) := by
      intro hpercent
      rw [definitionArguments?_other (by rw [hpercent]; decide) (by rw [hpercent]; decide)]
        at hsome
      cases hsome
    have hzero' : starLength source = 0 := if_neg (by rwa [h.head?_eq hmarker hhead])
    rw [hzero, hzero']
    exact ⟨rfl, h⟩

theorem isSome_newCommand_of_marked (hmarker : IsPlainMarker marker)
    (hmarked : IsMarked marker source target) (h : newCommand context target = some construct) :
    (newCommand context source).isSome = true := by
  obtain ⟨hescaped, hword, arguments, harguments, -⟩ := newCommand_eq_some_iff.mp h
  have hhead := head?_eq_of_controlWord_ne_nil
    (controlWord_ne_nil_of_mem_definitionCommands hword)
  obtain ⟨hsame, hrest⟩ := hmarked.controlWord hmarker hhead
  have hsome := Option.isSome_of_eq_some harguments
  obtain ⟨arguments', harguments'⟩ := Option.isSome_iff_exists.mp
    (isSome_definitionArguments?_of_marked hmarker (starLength_of_marked hmarker hrest hsome).2
      hsome)
  rw [newCommand_eq_some_iff.mpr ⟨hescaped, by rwa [← hsame], arguments', harguments', rfl⟩]
  rfl

theorem isSome_definition_of_marked (hmarker : IsPlainMarker marker)
    (hmarked : IsMarked marker source target) (h : definition context target = some construct) :
    (definition context source).isSome = true := by
  obtain ⟨hescaped, hword, behind, group, hafter, hname, hgroup, -⟩ := definition_eq_some_iff.mp h
  obtain ⟨hsame, hrest⟩ := hmarked.controlWord hmarker
    (head?_eq_of_controlWord_ne_nil (by rw [hword]; decide))
  obtain ⟨behind', hafter', hbehind⟩ := hrest.exists_cons hmarker hafter (by decide)
  have hname' : behind'.takeWhile isMacroNameByte ≠ [] := by
    obtain ⟨first, others, hfirst⟩ := List.exists_cons_of_ne_nil hname
    obtain ⟨rest, rfl⟩ : ∃ rest, behind = first :: rest := by
      cases behind with
      | nil => cases hfirst
      | cons b rest =>
          rw [List.takeWhile_cons] at hfirst
          split at hfirst <;> cases hfirst
          exact ⟨rest, rfl⟩
    have hletter : isMacroNameByte first = true :=
      List.all_eq_true.mp List.all_takeWhile first (by rw [hfirst]; exact List.mem_cons_self)
    obtain ⟨rest', rfl, -⟩ := hbehind.exists_cons hmarker rfl (by
      rintro rfl
      revert hletter
      decide)
    rw [List.takeWhile_cons_of_pos hletter]
    exact List.cons_ne_nil _ _
  have hparameters : IsMarked marker (behind'.drop (definitionHead behind'))
      (behind.drop (definitionHead behind)) := by
    rw [definitionHead_eq, definitionHead_eq, drop_length_takeWhile, drop_length_takeWhile]
    refine hbehind.dropWhile fun b hb => bne_iff_ne.mpr (hmarker.ne hb (by decide))
  obtain ⟨group', hgroup', -⟩ := (Group.braced?_skipsMarkers hmarker 1).skip hparameters hgroup
  rw [definition_eq_some_iff.mpr ⟨hescaped, hsame.symm.trans hword, behind', group', hafter',
    hname', hgroup', rfl⟩]
  rfl

theorem isSome_command_of_marked (hmarker : IsPlainMarker marker)
    (hmarked : IsMarked marker source target) (h : command context target = some construct) :
    (command context source).isSome = true := by
  obtain ⟨hescaped, hword, arguments, harguments, -⟩ := command_eq_some_iff.mp h
  obtain ⟨hsame, hrest⟩ := hmarked.controlWord hmarker (head?_eq_of_controlWord_ne_nil hword)
  obtain ⟨arguments', harguments', -⟩ :=
    (commandArguments?_skipsMarkers hmarker (controlWord target)).skip hrest harguments
  rw [hsame] at hword harguments'
  rw [command_eq_some_iff.mpr ⟨hescaped, hword, arguments', harguments', rfl⟩]
  rfl

theorem isSome_comment_of_marked (hne : before ≠ [])
    (h : comment context (before ++ (marker ++ behind)) = some construct) :
    (comment context (before ++ behind)).isSome = true := by
  obtain ⟨b, rest, rfl⟩ := List.exists_cons_of_ne_nil hne
  obtain ⟨hescaped, others, htext, -⟩ := comment_eq_some_iff.mp h
  rw [List.cons_append] at htext
  obtain ⟨rfl, rfl⟩ := List.cons.inj htext
  rw [List.cons_append, comment_eq_some_iff.mpr ⟨hescaped, _, rfl, rfl⟩]
  rfl

end Recognizer

theorem isSome_construct?_of_marked (hmarker : IsPlainMarker marker) (hline : EndsLine before)
    (hne : before ≠ [])
    (h : (construct? context (before ++ (marker ++ behind))).isSome = true) :
    (construct? context (before ++ behind)).isSome = true := by
  obtain ⟨⟨kind, construct⟩, hfound⟩ := Option.isSome_iff_exists.mp h
  obtain ⟨recognize, hentry, hfound⟩ := construct?_eq_some_iff.mp hfound
  have hmarked : IsMarked marker (before ++ behind) (before ++ (marker ++ behind)) := .insert hline
  suffices hsome : (recognize context (before ++ behind)).isSome = true by
    obtain ⟨construct', hfound'⟩ := Option.isSome_iff_exists.mp hsome
    rw [construct?_eq_some_iff.mpr ⟨recognize, hentry, hfound'⟩]
    rfl
  have hpair : ∀ {first second first' second' : UInt8}, isQuiet first = false → first ≠ '\n' →
      second ≠ '\n' → isQuiet first' = false → first' ≠ '\n' → second' ≠ '\n' →
      Recognizer.fenced [first, second] [first', second'] context
        (before ++ (marker ++ behind)) = some construct →
      (Recognizer.fenced [first, second] [first', second'] context
        (before ++ behind)).isSome = true := by
    intro first second first' second' hfirst hfeed hsecond hfirst' hfeed' hsecond' h
    exact Recognizer.isSome_fenced_of_marked hmarker (.pair hfirst hfeed hsecond)
      (.pair hfirst' hfeed' hsecond') hline hne h
  simp only [Recognizer.table, List.mem_cons, List.not_mem_nil, or_false, Prod.mk.injEq] at hentry
  rcases hentry with ⟨-, rfl⟩ | ⟨-, rfl⟩ | ⟨-, rfl⟩ | ⟨-, rfl⟩ | ⟨-, rfl⟩ | ⟨-, rfl⟩ |
    ⟨-, rfl⟩ | ⟨-, rfl⟩ | ⟨-, rfl⟩
  · exact Recognizer.isSome_comment_of_marked hne hfound
  · exact Recognizer.isSome_newCommand_of_marked hmarker hmarked hfound
  · exact Recognizer.isSome_definition_of_marked hmarker hmarked hfound
  · rw [Recognizer.displayMath_eq_fenced] at hfound ⊢
    exact hpair (by decide) (by decide) (by decide) (by decide) (by decide) (by decide) hfound
  · exact Recognizer.isSome_inlineMath_of_marked hmarker hline hne hfound
  · exact hpair (by decide) (by decide) (by decide) (by decide) (by decide) (by decide) hfound
  · exact hpair (by decide) (by decide) (by decide) (by decide) (by decide) (by decide) hfound
  · exact Recognizer.isSome_environment_of_marked hmarker hline hne hfound
  · exact Recognizer.isSome_command_of_marked hmarker hmarked hfound

/-! ## Constructs in front of a marker and around it -/

variable {body : Text} {kind : RegionKind} {name : Text} {length : Nat}

theorem not_endsLine_of_construct? {rest : Text}
    (h : construct? context (body ++ rest) = some (kind, ⟨body.length, name⟩)) :
    ¬EndsLine body := by
  intro hline
  have hfeed := hline.mem (List.length_pos_iff.mp (construct?_spec h).2.1)
  obtain ⟨recognize, hentry, hfound⟩ := construct?_eq_some_iff.mp h
  by_cases hkind : kind = .comment
  · subst hkind
    obtain rfl : recognize = Recognizer.comment := by simpa [Recognizer.table] using hentry
    obtain ⟨-, others, htext, hlength⟩ := Recognizer.comment_eq_some_iff.mp hfound
    have hbody := congrArg (List.take body.length) htext
    rw [List.take_left, (Construct.mk.inj hlength).1, Nat.add_comm, List.take_succ_cons,
      take_length_takeWhile] at hbody
    rw [hbody, List.mem_cons] at hfeed
    rcases hfeed with hfeed | hfeed
    · revert hfeed
      decide
    · have hinside := List.all_eq_true.mp List.all_takeWhile _ hfeed
      simp at hinside
  · obtain ⟨inner, last, hinner, hlast⟩ := Recognizer.take_eq_of_mem_table hentry hkind hfound
    rw [List.take_left] at hinner
    obtain rfl := hline last (by rw [hinner, List.getLast?_concat])
    revert hlast
    decide

/-- A construct is found again if a later line gets a marker. -/
theorem construct?_in_front_of_marker (hmarker : IsPlainMarker marker)
    (hline : EndsLine (body ++ before))
    (h : construct? context (body ++ (before ++ behind)) = some (kind, ⟨body.length, name⟩)) :
    construct? context (body ++ (before ++ (marker ++ behind))) =
      some (kind, ⟨body.length, name⟩) := by
  have hne : before ≠ [] := by
    rintro rfl
    rw [List.append_nil] at hline
    exact not_endsLine_of_construct? h hline
  have hhead : (before ++ (marker ++ behind)).head? = (before ++ behind).head? := by
    rw [List.head?_append_of_ne_nil _ hne, List.head?_append_of_ne_nil _ hne]
  refine construct?_again h ?_ ?_ ?_
  · rw [hhead]
    exact id
  · rw [hhead]
    exact fun _ => id
  · intro _ hnone
    rw [← Option.not_isSome_iff_eq_none] at hnone ⊢
    exact mt (Recognizer.isSome_definitionArguments?_of_marked hmarker (.insert hline.suffix)) hnone

theorem construct?_around_marker (hmarker : IsPlainMarker marker) (hline : EndsLine before)
    (hne : before ≠ []) (hlength : before.length < length)
    (h : construct? context (before ++ behind) = some (.environment, ⟨length, name⟩)) :
    construct? context (before ++ (marker ++ behind)) =
      some (.environment, ⟨length + marker.length, name⟩) := by
  obtain ⟨recognize, hentry, hfound⟩ := construct?_eq_some_iff.mp h
  obtain rfl : recognize = Recognizer.environment := by simpa [Recognizer.table] using hentry
  obtain ⟨hname, hfenced⟩ := Recognizer.environment_eq_some_iff.mp hfound
  obtain ⟨hescaped, hstarts, distance, hdistance, hreach⟩ :=
    Recognizer.fenced_eq_some_iff.mp hfenced
  have hvalid := Recognizer.isName_of_isShieldedEnvironment hname
  have hopener : IsFence (DelimiterToken.mk .opening name).source := .source hvalid
  have hcloser : IsFence (DelimiterToken.mk .closing name).source := .source hvalid
  obtain ⟨inner, rfl⟩ := (hline.prefix_append_iff hne hopener.unbroken _).mp hstarts
  have hinner : inner ≠ [] := by
    rintro rfl
    rw [List.append_nil] at hline hne
    exact hopener.unbroken (hline.mem hne)
  simp only [Construct.mk.injEq, and_true] at hreach
  rw [List.append_assoc, List.drop_left] at hdistance
  rw [List.length_append] at hlength
  -- The closing delimiter stands behind the marker, since it holds no end of a line.
  have hbehind : inner.length ≤ distance := by
    by_contra hlt
    have hrest : inner.drop distance ≠ [] := by simpa using Nat.lt_of_not_le hlt
    have hclose := (unescapedDistance?_spec hdistance).2
    rw [List.drop_append_of_le_length (by omega),
      (hline.suffix.drop distance).prefix_append_iff hrest hcloser.unbroken] at hclose
    have hfit := hclose.length_le
    rw [List.length_drop] at hfit
    omega
  refine construct?_eq_some_iff.mpr ⟨_, hentry, Recognizer.environment_of_fenced hname
    (Recognizer.fenced_eq_some_iff.mpr ⟨hescaped, ?_, distance + marker.length, ?_, ?_⟩)⟩
  · rw [List.append_assoc]
    exact List.prefix_append _ _
  · rw [List.append_assoc, List.drop_left,
      hcloser.distance? hmarker hline.suffix (hline.suffix.pushAll hinner), hdistance,
      Option.map_some, if_neg (by omega)]
  · rw [Construct.mk.injEq]
    exact ⟨by omega, rfl⟩

end LatexIntegrity
