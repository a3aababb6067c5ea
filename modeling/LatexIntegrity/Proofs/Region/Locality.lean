import LatexIntegrity.Region.Recognizer
import LatexIntegrity.Proofs.Markup.Delimiter

/-!
# What recognizers look at

A recognizer counts bytes that are there.  Most of them look at no byte behind
those that they count; comments, single dollars and definition commands also look
at what follows, and only there.
-/

namespace LatexIntegrity

/-! ## Arguments of commands -/

theorem head?_take_append {text : Text} {length : Nat} (hpos : 0 < length)
    (hfit : length ≤ text.length) (other : Text) :
    (text.take length ++ other).head? = text.head? := by
  obtain ⟨b, rest, rfl⟩ := List.exists_cons_of_length_pos (Nat.lt_of_lt_of_le hpos hfit)
  obtain ⟨length, rfl⟩ := Nat.exists_eq_add_of_lt hpos
  simp

theorem take_add_append {text : Text} (first second : Nat) (other : Text) :
    text.take (first + second) ++ other =
      text.take first ++ ((text.drop first).take second ++ other) := by
  rw [List.take_add, List.append_assoc]

theorem IsLocal.seq {first second : Text → Option Nat} (hfirst : IsLocal first)
    (hsecond : IsLocal second) :
    IsLocal fun text => do
      let before ← first text
      let behind ← second (text.drop before)
      return before + behind := by
  refine .intro ?_
  intro text length h
  obtain ⟨before, hbefore, h⟩ := Option.bind_eq_some_iff.mp h
  obtain ⟨behind, hbehind, h⟩ := Option.bind_eq_some_iff.mp h
  cases h
  have hfit := hfirst.fits hbefore
  have hfit' := hsecond.fits hbehind
  rw [List.length_drop] at hfit'
  refine ⟨by omega, fun other => ?_⟩
  have hagain : first (text.take (before + behind) ++ other) = some before := by
    rw [take_add_append]
    exact hfirst.again hbefore _
  have hdrop : (text.take (before + behind) ++ other).drop before =
      (text.drop before).take behind ++ other := by
    rw [take_add_append, List.drop_left' (List.length_take_of_le hfit)]
  simp [hagain, hdrop, hsecond.again hbehind other]

namespace Recognizer

def citationArguments? (count : Nat) (text : Text) : Option Nat := do
  let options ← optionalArguments? count text
  let argument ← Group.argument? (text.drop options)
  return options + argument

theorem citationArguments?_succ (count : Nat) (text : Text) :
    citationArguments? (count + 1) text =
      if text.head? = some ('[' : UInt8) then do
        let first ← Group.optional? text
        let behind ← citationArguments? count (text.drop first)
        return first + behind
      else Group.argument? text := by
  rw [citationArguments?, optionalArguments?]
  split
  · cases Group.optional? text with
    | none => rfl
    | some first =>
        simp only [citationArguments?, Option.bind_eq_bind, Option.bind_some]
        cases hothers : optionalArguments? count (text.drop first) with
        | none => rfl
        | some others =>
            simp only [Option.bind_some, Option.pure_def, List.drop_drop]
            cases Group.argument? (text.drop (first + others)) with
            | none => rfl
            | some argument => simp [Nat.add_assoc]
  · simp

theorem citationArguments?_zero : citationArguments? 0 = Group.argument? := by
  funext text
  simp [citationArguments?, optionalArguments?]

theorem citationArguments?_pos {count : Nat} {text : Text} {length : Nat}
    (h : citationArguments? count text = some length) : 0 < length := by
  obtain ⟨options, -, h⟩ := Option.bind_eq_some_iff.mp h
  obtain ⟨argument, hargument, h⟩ := Option.bind_eq_some_iff.mp h
  have hpos := Group.flat?_pos hargument
  cases h
  omega

theorem citationArguments?_isLocal (count : Nat) : IsLocal (citationArguments? count) := by
  induction count with
  | zero =>
      rw [citationArguments?_zero]
      exact Group.flat?_isLocal _ _
  | succ count ih =>
      refine .intro ?_
      intro text length h
      have hpos := citationArguments?_pos h
      rw [citationArguments?_succ] at h
      split at h
      · next hhead =>
          have hlocal := (Group.flat?_isLocal '[' ']').seq ih
          refine ⟨hlocal.fits h, fun other => ?_⟩
          rw [citationArguments?_succ, head?_take_append hpos (hlocal.fits h), if_pos hhead]
          exact hlocal.again h other
      · next hhead =>
          have hlocal := Group.flat?_isLocal '{' '}'
          refine ⟨hlocal.fits h, fun other => ?_⟩
          rw [citationArguments?_succ, head?_take_append hpos (hlocal.fits h), if_neg hhead]
          exact hlocal.again h other

theorem commandArguments?_eq (word : Text) :
    commandArguments? word =
      if singleArgumentCommands.contains word then Group.argument?
      else if isCitationCommand word then citationArguments? 2
      else if word == "href" then fun text => do
        let first ← Group.argument? text
        let second ← Group.argument? (text.drop first)
        return first + second
      else fun _ => none := by
  funext text
  unfold commandArguments?
  split
  · rfl
  · split
    · rfl
    · split <;> rfl

theorem commandArguments?_isLocal (word : Text) : IsLocal (commandArguments? word) := by
  rw [commandArguments?_eq]
  split
  · exact Group.flat?_isLocal _ _
  · split
    · exact citationArguments?_isLocal 2
    · split
      · exact (Group.flat?_isLocal '{' '}').seq (Group.flat?_isLocal '{' '}')
      · refine ⟨?_, ?_⟩
        · intro text length h
          cases h
        · intro text length h
          cases h

theorem commandArguments?_pos {word text : Text} {length : Nat}
    (h : commandArguments? word text = some length) : 0 < length := by
  rw [commandArguments?_eq] at h
  split at h
  · exact Group.flat?_pos h
  · split at h
    · exact citationArguments?_pos h
    · split at h
      · obtain ⟨first, hfirst, h⟩ := Option.bind_eq_some_iff.mp h
        obtain ⟨second, -, h⟩ := Option.bind_eq_some_iff.mp h
        have hpos := Group.flat?_pos hfirst
        cases h
        omega
      · cases h

/-! ## Arguments of definitions -/

theorem definitionArguments?_brace {text : Text} (h : text.head? = some ('{' : UInt8)) :
    definitionArguments? text =
      (Group.braced? 1 text).bind fun group =>
        match definitionArguments? (text.drop group) with
        | none => some group
        | some more => some (group + more) := by
  obtain ⟨rest, rfl⟩ := List.head?_eq_some_iff.mp h
  rw [definitionArguments?, beq_self_eq_true, if_pos rfl]
  cases hgroup : Group.braced? 1 (('{' : UInt8) :: rest) with
  | none => rfl
  | some group =>
      exact congrArg (fun behind => match definitionArguments? behind with
        | none => some group
        | some more => some (group + more)) (List.drop_cons (Group.braced?_pos hgroup)).symm

theorem definitionArguments?_bracket {text : Text} (h : text.head? = some ('[' : UInt8)) :
    definitionArguments? text =
      (Group.optional? text).bind fun group =>
        (definitionArguments? (text.drop group)).map (group + ·) := by
  obtain ⟨rest, rfl⟩ := List.head?_eq_some_iff.mp h
  rw [definitionArguments?, if_neg (by decide), if_pos (by decide)]
  cases hgroup : Group.optional? (('[' : UInt8) :: rest) with
  | none => rfl
  | some group => rw [Option.bind_some, List.drop_cons (Group.flat?_pos hgroup)]

theorem definitionArguments?_other {text : Text} (hbrace : text.head? ≠ some ('{' : UInt8))
    (hbracket : text.head? ≠ some ('[' : UInt8)) : definitionArguments? text = none := by
  cases text with
  | nil => rw [definitionArguments?]
  | cons b rest =>
      rw [definitionArguments?, if_neg (by simpa using hbrace), if_neg (by simpa using hbracket)]

/--
How the arguments of a definition are read: group by group, up to a brace group behind
which no more of them can be read.
-/
inductive DefinitionArguments : Text → Nat → Prop where
  | last {text : Text} {group : Nat} : Group.braced? 1 text = some group →
      definitionArguments? (text.drop group) = none → DefinitionArguments text group
  | brace {text : Text} {group more : Nat} : Group.braced? 1 text = some group →
      DefinitionArguments (text.drop group) more → DefinitionArguments text (group + more)
  | bracket {text : Text} {group more : Nat} : Group.optional? text = some group →
      DefinitionArguments (text.drop group) more → DefinitionArguments text (group + more)

theorem DefinitionArguments.of_definitionArguments? {text : Text} {length : Nat}
    (h : definitionArguments? text = some length) : DefinitionArguments text length := by
  induction hn : text.length using Nat.strongRecOn generalizing text length with
  | ind n ih =>
      subst hn
      by_cases hbrace : text.head? = some ('{' : UInt8)
      · rw [definitionArguments?_brace hbrace] at h
        obtain ⟨group, hgroup, h⟩ := Option.bind_eq_some_iff.mp h
        have hpos := Group.braced?_pos hgroup
        have hfit := (Group.braced?_isLocal 1).fits hgroup
        split at h
        · next hmore =>
            cases h
            exact .last hgroup hmore
        · next more hmore =>
            cases h
            exact .brace hgroup (ih _ (by rw [List.length_drop]; omega) hmore rfl)
      · by_cases hbracket : text.head? = some ('[' : UInt8)
        · rw [definitionArguments?_bracket hbracket] at h
          obtain ⟨group, hgroup, h⟩ := Option.bind_eq_some_iff.mp h
          obtain ⟨more, hmore, rfl⟩ := Option.map_eq_some_iff.mp h
          have hpos := Group.flat?_pos hgroup
          have hfit := (Group.flat?_isLocal '[' ']').fits hgroup
          exact .bracket hgroup (ih _ (by rw [List.length_drop]; omega) hmore rfl)
        · rw [definitionArguments?_other hbrace hbracket] at h
          cases h

theorem definitionArguments?_eq_some_iff {text : Text} {length : Nat} :
    definitionArguments? text = some length ↔ DefinitionArguments text length := by
  refine ⟨.of_definitionArguments?, fun h => ?_⟩
  induction h with
  | last hgroup hmore =>
      rw [definitionArguments?_brace (Group.head?_of_braced?_eq_some hgroup), hgroup,
        Option.bind_some, hmore]
  | brace hgroup _ ih =>
      rw [definitionArguments?_brace (Group.head?_of_braced?_eq_some hgroup), hgroup,
        Option.bind_some, ih]
  | bracket hgroup _ ih =>
      rw [definitionArguments?_bracket (Group.head?_of_flat?_eq_some hgroup), hgroup,
        Option.bind_some, ih, Option.map_some]

theorem head?_of_definitionArguments?_eq_some {text : Text} {length : Nat}
    (h : definitionArguments? text = some length) :
    text.head? = some ('{' : UInt8) ∨ text.head? = some ('[' : UInt8) := by
  cases definitionArguments?_eq_some_iff.mp h with
  | last hgroup => exact .inl (Group.head?_of_braced?_eq_some hgroup)
  | brace hgroup => exact .inl (Group.head?_of_braced?_eq_some hgroup)
  | bracket hgroup => exact .inr (Group.head?_of_flat?_eq_some hgroup)

theorem isSome_definitionArguments?_of_braced {text : Text}
    (h : (Group.braced? 1 text).isSome = true) : (definitionArguments? text).isSome = true := by
  obtain ⟨group, hgroup⟩ := Option.isSome_iff_exists.mp h
  rw [definitionArguments?_brace (Group.head?_of_braced?_eq_some hgroup), hgroup,
    Option.bind_some]
  split <;> rfl

theorem isSome_definitionArguments?_of_optional {text : Text} {group : Nat}
    (h : Group.optional? text = some group) :
    (definitionArguments? text).isSome = (definitionArguments? (text.drop group)).isSome := by
  rw [definitionArguments?_bracket (Group.head?_of_flat?_eq_some h), h, Option.bind_some,
    Option.isSome_map]

/--
What the greedy reading of definition arguments finds: it ends where no more
arguments can be read, and this is all that it asks of the bytes behind.
-/
theorem definitionArguments?_spec {text : Text} {length : Nat}
    (h : definitionArguments? text = some length) :
    0 < length ∧ length ≤ text.length ∧ definitionArguments? (text.drop length) = none ∧
      ∀ other, definitionArguments? other = none →
        definitionArguments? (text.take length ++ other) = some length := by
  replace h := definitionArguments?_eq_some_iff.mp h
  simp only [definitionArguments?_eq_some_iff]
  induction h with
  | last hgroup hmore =>
      have hlocal := Group.braced?_isLocal 1
      have hfit := hlocal.fits hgroup
      refine ⟨Group.braced?_pos hgroup, hfit, hmore, fun other hother => ?_⟩
      refine .last (hlocal.again hgroup other) ?_
      rwa [List.drop_left' (List.length_take_of_le hfit)]
  | brace hgroup _ ih =>
      obtain ⟨hpos, hfit, hend, hagain⟩ := ih
      have hlocal := Group.braced?_isLocal 1
      have hgroupFit := hlocal.fits hgroup
      rw [List.length_drop] at hfit
      refine ⟨by omega, by omega, by rwa [List.drop_drop] at hend, fun other hother => ?_⟩
      rw [take_add_append]
      refine .brace (hlocal.again hgroup _) ?_
      rw [List.drop_left' (List.length_take_of_le hgroupFit)]
      exact hagain other hother
  | bracket hgroup _ ih =>
      obtain ⟨hpos, hfit, hend, hagain⟩ := ih
      have hlocal := Group.flat?_isLocal '[' ']'
      have hgroupFit := hlocal.fits hgroup
      rw [List.length_drop] at hfit
      refine ⟨by omega, by omega, by rwa [List.drop_drop] at hend, fun other hother => ?_⟩
      rw [take_add_append]
      refine .bracket (hlocal.again hgroup _) ?_
      rw [List.drop_left' (List.length_take_of_le hgroupFit)]
      exact hagain other hother

/-! ## Recognizers -/

/-- The recognizer's constructs are bytes that are there, and it looks at no others. -/
structure IsSelfContained (recognize : Recognizer) : Prop where
  pos : ∀ {context text construct}, recognize context text = some construct →
    0 < construct.length
  fits : ∀ {context text construct}, recognize context text = some construct →
    construct.length ≤ text.length
  again : ∀ {context text construct}, recognize context text = some construct →
    ∀ other, recognize context (text.take construct.length ++ other) = some construct

theorem fenced_eq_some_iff {opener closer : Text} {context : LeftContext} {text : Text}
    {construct : Construct} :
    fenced opener closer context text = some construct ↔
      context.escaped = false ∧ opener <+: text ∧
        ∃ distance,
          unescapedDistance? closer (context.pushAll opener) (text.drop opener.length) =
              some distance ∧
            construct = ⟨opener.length + distance + closer.length, []⟩ := by
  rw [fenced]
  constructor
  · intro h
    split at h
    · cases h
    · next hopen =>
        obtain ⟨distance, hdistance, hconstruct⟩ := Option.map_eq_some_iff.mp h
        rw [Bool.or_eq_true, not_or, Bool.not_eq_true', Bool.not_eq_false,
          List.isPrefixOf_iff_prefix, Bool.not_eq_true] at hopen
        exact ⟨hopen.2, hopen.1, distance, hdistance, hconstruct.symm⟩
  · rintro ⟨hescaped, hopener, distance, hdistance, rfl⟩
    rw [hescaped, List.isPrefixOf_iff_prefix.mpr hopener, hdistance]
    rfl

theorem fenced_isSelfContained {opener closer : Text} (hopener : opener ≠ [])
    (hcloser : closer ≠ []) : IsSelfContained (fenced opener closer) := by
  have hpos := List.length_pos_iff.mpr hopener
  have hfits : ∀ {context text construct},
      fenced opener closer context text = some construct →
        construct.length ≤ text.length := by
    intro context text construct h
    obtain ⟨-, ⟨inner, rfl⟩, distance, hdistance, rfl⟩ := fenced_eq_some_iff.mp h
    rw [List.drop_left] at hdistance
    have hfit := unescapedDistance?_add_le hdistance
    simp only [List.length_append]
    omega
  refine ⟨?_, hfits, ?_⟩
  · intro context text construct h
    obtain ⟨-, -, distance, -, rfl⟩ := fenced_eq_some_iff.mp h
    simp only
    omega
  · intro context text construct h other
    obtain ⟨hescaped, ⟨inner, rfl⟩, distance, hdistance, rfl⟩ := fenced_eq_some_iff.mp h
    rw [List.drop_left] at hdistance
    simp only [Nat.add_assoc, List.take_length_add_append, List.append_assoc]
    refine fenced_eq_some_iff.mpr ⟨hescaped, List.prefix_append _ _, distance, ?_,
      by rw [Nat.add_assoc]⟩
    rw [List.drop_left]
    exact unescapedDistance?_take_append hcloser hdistance other

theorem displayMath_eq_fenced : displayMath = fenced "$$" "$$" := by
  funext context text
  have hlength : (Text.ofString "$$").length = 2 := by decide
  simp only [displayMath, fenced, hlength]
  split
  · rfl
  · congr 1
    funext distance
    congr 1
    omega

theorem isName_of_isShieldedEnvironment {name : Text}
    (h : isShieldedEnvironment name = true) : Environment.IsName name := by
  have hall : ∀ name ∈ shieldedEnvironments, Environment.IsName name := by decide +kernel
  exact hall name (by simpa [isShieldedEnvironment] using h)

theorem environment_eq_some_iff {context : LeftContext} {text : Text}
    {construct : Construct} :
    environment context text = some construct ↔
      isShieldedEnvironment construct.name = true ∧
        fenced (DelimiterToken.mk .opening construct.name).source
            (DelimiterToken.mk .closing construct.name).source context text =
          some ⟨construct.length, []⟩ := by
  rw [environment]
  constructor
  · intro h
    split at h
    · cases h
    · next hescaped =>
        split at h
        · next name hread =>
            split at h
            · cases h
            · next hshielded =>
                obtain ⟨distance, hdistance, rfl⟩ := Option.map_eq_some_iff.mp h
                have hshielded : isShieldedEnvironment name = true := by
                  simpa using hshielded
                rw [Environment.closingDistance?_eq
                  (isName_of_isShieldedEnvironment hshielded)] at hdistance
                exact ⟨hshielded, fenced_eq_some_iff.mpr ⟨by simpa using hescaped,
                  (DelimiterToken.read?_eq_some_iff.mp hread).2, distance, hdistance, rfl⟩⟩
        · cases h
  · rintro ⟨hshielded, h⟩
    obtain ⟨hescaped, hopener, distance, hdistance, hconstruct⟩ := fenced_eq_some_iff.mp h
    have hname := isName_of_isShieldedEnvironment hshielded
    have hread := DelimiterToken.read?_eq_some_iff.mpr
      (show Environment.IsName (DelimiterToken.mk .opening construct.name).name ∧ _ from
        ⟨hname, hopener⟩)
    rw [hescaped, if_neg Bool.false_ne_true, hread]
    simp only [hshielded, Bool.not_true, Bool.false_eq_true, if_false,
      Environment.closingDistance?_eq hname, hdistance, Option.map_some]
    exact congrArg (fun length => some (Construct.mk length construct.name))
      (congrArg Construct.length hconstruct).symm

theorem environment_of_fenced {context : LeftContext} {text name : Text} {length : Nat}
    (hname : isShieldedEnvironment name = true)
    (h : fenced (DelimiterToken.mk .opening name).source
      (DelimiterToken.mk .closing name).source context text = some ⟨length, []⟩) :
    environment context text = some ⟨length, name⟩ :=
  environment_eq_some_iff.mpr ⟨hname, h⟩

theorem environment_isSelfContained : IsSelfContained environment := by
  have hfenced := fun name : Text => fenced_isSelfContained
    (DelimiterToken.source_ne_nil ⟨.opening, name⟩)
    (DelimiterToken.source_ne_nil ⟨.closing, name⟩)
  refine ⟨?_, ?_, ?_⟩
  · intro context text construct h
    have hpos := (hfenced construct.name).pos (environment_eq_some_iff.mp h).2
    exact hpos
  · intro context text construct h
    have hfits := (hfenced construct.name).fits (environment_eq_some_iff.mp h).2
    exact hfits
  · intro context text construct h other
    obtain ⟨hshielded, h⟩ := environment_eq_some_iff.mp h
    exact environment_eq_some_iff.mpr ⟨hshielded, (hfenced _).again h other⟩

theorem command_eq_some_iff {context : LeftContext} {text : Text} {construct : Construct} :
    command context text = some construct ↔
      context.escaped = false ∧ controlWord text ≠ [] ∧
        ∃ arguments,
          commandArguments? (controlWord text) (afterControlWord text) = some arguments ∧
            construct = ⟨1 + (controlWord text).length + arguments, []⟩ := by
  rw [command]
  constructor
  · intro h
    split at h
    · cases h
    · next hword =>
        obtain ⟨arguments, harguments, hconstruct⟩ := Option.map_eq_some_iff.mp h
        rw [Bool.or_eq_true, not_or, List.isEmpty_iff, Bool.not_eq_true] at hword
        exact ⟨hword.2, hword.1, arguments, harguments, hconstruct.symm⟩
  · rintro ⟨hescaped, hword, arguments, harguments, rfl⟩
    rw [hescaped, if_neg (by simpa using hword), harguments]
    rfl

theorem length_afterControlWord (text : Text) :
    (afterControlWord text).length = text.length - (1 + (controlWord text).length) := by
  rw [afterControlWord, List.length_drop]

theorem command_isSelfContained : IsSelfContained command := by
  have hfits : ∀ {context text construct}, command context text = some construct →
      construct.length ≤ text.length := by
    intro context text construct h
    obtain ⟨-, -, arguments, harguments, rfl⟩ := command_eq_some_iff.mp h
    have hfit := (commandArguments?_isLocal _).fits harguments
    have hpos := commandArguments?_pos harguments
    rw [length_afterControlWord] at hfit
    simp only
    omega
  refine ⟨?_, hfits, ?_⟩
  · intro context text construct h
    obtain ⟨-, -, arguments, -, rfl⟩ := command_eq_some_iff.mp h
    simp only
    omega
  · intro context text construct h other
    obtain ⟨hescaped, hword, arguments, harguments, rfl⟩ := command_eq_some_iff.mp h
    have hlocal := commandArguments?_isLocal (controlWord text)
    obtain ⟨hword', hbehind⟩ := controlWord_take_append
      (head?_eq_of_controlWord_ne_nil hword) (commandArguments?_pos harguments)
      (hlocal.fits harguments) other
    rw [command_eq_some_iff, hword', hbehind]
    exact ⟨hescaped, hword, arguments, hlocal.again harguments other, rfl⟩

def definitionHead (text : Text) : Nat :=
  let name := text.takeWhile isMacroNameByte
  name.length + ((text.drop name.length).takeWhile (· != ('{' : UInt8))).length

theorem definitionHead_take_append {text : Text} {length : Nat}
    (hrun : definitionHead text < length) (hfit : length ≤ text.length) (other : Text) :
    (text.take length ++ other).takeWhile isMacroNameByte =
        text.takeWhile isMacroNameByte ∧
      definitionHead (text.take length ++ other) = definitionHead text := by
  rw [definitionHead] at hrun
  have hname : (text.take length ++ other).takeWhile isMacroNameByte =
      text.takeWhile isMacroNameByte := takeWhile_take_append (by omega) hfit other
  refine ⟨hname, ?_⟩
  rw [definitionHead, definitionHead, hname,
    List.drop_append_of_le_length (by rw [List.length_take_of_le hfit]; omega),
    List.drop_take]
  congr 2
  exact takeWhile_take_append (by omega) (by rw [List.length_drop]; omega) other

theorem definition_eq_some_iff {context : LeftContext} {text : Text}
    {construct : Construct} :
    definition context text = some construct ↔
      context.escaped = false ∧ controlWord text = "def" ∧
        ∃ behind group, afterControlWord text = ('\\' : UInt8) :: behind ∧
          behind.takeWhile isMacroNameByte ≠ [] ∧
            Group.braced? 1 (behind.drop (definitionHead behind)) = some group ∧
              construct = ⟨5 + definitionHead behind + group, []⟩ := by
  rw [definition]
  constructor
  · intro h
    split at h
    · cases h
    · next hword =>
        split at h
        · cases h
        · next b behind hafter =>
            simp only at h
            split at h
            · cases h
            · next hname =>
                obtain ⟨group, hgroup, rfl⟩ := Option.map_eq_some_iff.mp h
                simp only [bne_iff_ne, Bool.or_eq_true, not_or, not_not, ne_eq,
                  List.isEmpty_iff, Bool.not_eq_true] at hword hname
                exact ⟨hword.2, hword.1, behind, group, by rw [hafter, hname.1], hname.2,
                  hgroup, rfl⟩
  · rintro ⟨hescaped, hword, behind, group, hafter, hname, hgroup, rfl⟩
    rw [hescaped, hword, if_neg (by simp), hafter]
    simp only [bne_self_eq_false, Bool.false_or, List.isEmpty_iff, hname, if_false]
    rw [show Group.braced? 1 (behind.drop ((behind.takeWhile isMacroNameByte).length +
      ((behind.drop (behind.takeWhile isMacroNameByte).length).takeWhile
        (· != ('{' : UInt8))).length)) = some group from hgroup]
    rfl

theorem definition_isSelfContained : IsSelfContained definition := by
  have hdef : (Text.ofString "def").length = 3 := by decide
  have hdef' : Text.ofString "def" ≠ [] := by decide
  have hfits : ∀ {context text construct}, definition context text = some construct →
      construct.length ≤ text.length := by
    intro context text construct h
    obtain ⟨-, hword, behind, group, hafter, -, hgroup, rfl⟩ := definition_eq_some_iff.mp h
    have hfit := (Group.braced?_isLocal 1).fits hgroup
    have hpos := Group.braced?_pos hgroup
    have hlength := length_afterControlWord text
    rw [hafter, hword, hdef, List.length_cons] at hlength
    rw [List.length_drop] at hfit
    simp only
    omega
  refine ⟨?_, hfits, ?_⟩
  · intro context text construct h
    obtain ⟨-, -, behind, group, -, -, -, rfl⟩ := definition_eq_some_iff.mp h
    simp only
    omega
  · -- The head ends at the opening brace, and the group decides by its own bytes.
    intro context text construct h other
    obtain ⟨hescaped, hword, behind, group, hafter, hname, hgroup, rfl⟩ :=
      definition_eq_some_iff.mp h
    have hlocal := Group.braced?_isLocal 1
    have hfit := hlocal.fits hgroup
    have hpos := Group.braced?_pos hgroup
    rw [List.length_drop] at hfit
    have hlength := length_afterControlWord text
    rw [hafter, hword, hdef, List.length_cons] at hlength
    obtain ⟨hword', hbehind⟩ := controlWord_take_append
      (head?_eq_of_controlWord_ne_nil (by rw [hword]; exact hdef'))
      (show 0 < definitionHead behind + group + 1 by omega)
      (by rw [hafter, List.length_cons]; omega) other
    rw [hword, hdef, hafter, List.take_succ_cons, List.cons_append] at hbehind
    rw [hword, hdef] at hword'
    obtain ⟨hname', hhead⟩ := definitionHead_take_append
      (show definitionHead behind < definitionHead behind + group by omega) (by omega) other
    rw [show 5 + definitionHead behind + group =
      1 + 3 + (definitionHead behind + group + 1) by omega]
    refine definition_eq_some_iff.mpr ⟨hescaped, hword', _, group, hbehind, ?_, ?_, ?_⟩
    · rwa [hname']
    · rw [hhead, take_add_append,
        List.drop_left' (List.length_take_of_le (by omega))]
      exact hlocal.again hgroup other
    · rw [hhead]
      congr 1
      omega

def starLength (text : Text) : Nat := if text.head? = some ('*' : UInt8) then 1 else 0

theorem newCommand_eq_some_iff {context : LeftContext} {text : Text}
    {construct : Construct} :
    newCommand context text = some construct ↔
      context.escaped = false ∧ definitionCommands.contains (controlWord text) = true ∧
        ∃ arguments,
          definitionArguments?
              ((afterControlWord text).drop (starLength (afterControlWord text))) =
            some arguments ∧
            construct = ⟨1 + (controlWord text).length +
              (starLength (afterControlWord text) + arguments), []⟩ := by
  rw [newCommand]
  constructor
  · intro h
    split at h
    · cases h
    · next hword =>
        obtain ⟨arguments, harguments, rfl⟩ := Option.map_eq_some_iff.mp h
        rw [Bool.or_eq_true, not_or, Bool.not_eq_true', Bool.not_eq_false,
          Bool.not_eq_true] at hword
        exact ⟨hword.2, hword.1, arguments, harguments, by rw [← Nat.add_assoc]; rfl⟩
  · rintro ⟨hescaped, hword, arguments, harguments, rfl⟩
    rw [hescaped, hword]
    rw [starLength] at harguments ⊢
    simp only [Bool.not_true, Bool.or_false, Bool.false_eq_true, if_false, harguments,
      Option.map_some, Nat.add_assoc]

theorem controlWord_ne_nil_of_mem_definitionCommands {text : Text}
    (h : definitionCommands.contains (controlWord text) = true) : controlWord text ≠ [] := by
  intro hnil
  rw [hnil] at h
  revert h
  decide

theorem newCommand_pos {context : LeftContext} {text : Text} {construct : Construct}
    (h : newCommand context text = some construct) : 0 < construct.length := by
  obtain ⟨-, -, arguments, -, rfl⟩ := newCommand_eq_some_iff.mp h
  simp only
  omega

theorem newCommand_spec {context : LeftContext} {text : Text} {construct : Construct}
    (h : newCommand context text = some construct) :
    construct.length ≤ text.length ∧
      definitionArguments? (text.drop construct.length) = none ∧
        ∀ other, definitionArguments? other = none →
          newCommand context (text.take construct.length ++ other) = some construct := by
  obtain ⟨hescaped, hword, arguments, harguments, rfl⟩ := newCommand_eq_some_iff.mp h
  obtain ⟨hpos, hfit, hend, hagain⟩ := definitionArguments?_spec harguments
  have hhead := head?_eq_of_controlWord_ne_nil
    (controlWord_ne_nil_of_mem_definitionCommands hword)
  have hlength := length_afterControlWord text
  generalize hstar : starLength (afterControlWord text) = star at *
  rw [List.length_drop] at hfit
  refine ⟨by simp only; omega, ?_, fun other hother => ?_⟩
  · rw [List.drop_drop, afterControlWord, List.drop_drop] at hend
    exact hend
  · obtain ⟨hword', hbehind⟩ := controlWord_take_append hhead
      (show 0 < star + arguments by omega) (by omega) other
    have hstar' : starLength ((afterControlWord text).take (star + arguments) ++ other) =
        star := by
      rw [starLength, head?_take_append (by omega) (by omega)]
      exact hstar
    refine newCommand_eq_some_iff.mpr ⟨hescaped, by rwa [hword'], arguments, ?_, ?_⟩
    · rw [hbehind, hstar', take_add_append,
        List.drop_left' (List.length_take_of_le (by omega))]
      exact hagain other hother
    · rw [hword', hbehind, hstar']

theorem comment_eq_some_iff {context : LeftContext} {text : Text} {construct : Construct} :
    comment context text = some construct ↔
      context.escaped = false ∧ ∃ rest, text = ('%' : UInt8) :: rest ∧
        construct = ⟨1 + (rest.takeWhile (· != ('\n' : UInt8))).length, []⟩ := by
  cases text with
  | nil => simp [comment]
  | cons b rest =>
      rw [comment]
      by_cases hb : b = ('%' : UInt8)
      · subst hb
        cases hescaped : context.escaped with
        | false => simp [eq_comm]
        | true => simp
      · simp [hb]

theorem comment_spec {context : LeftContext} {text : Text} {construct : Construct}
    (h : comment context text = some construct) :
    0 < construct.length ∧ construct.length ≤ text.length ∧
      (∀ b, (text.drop construct.length).head? = some b → b = ('\n' : UInt8)) ∧
        ∀ other, (∀ b, other.head? = some b → b = ('\n' : UInt8)) →
          comment context (text.take construct.length ++ other) = some construct := by
  obtain ⟨hescaped, rest, rfl, rfl⟩ := comment_eq_some_iff.mp h
  have hsplit := List.takeWhile_append_dropWhile (p := (· != ('\n' : UInt8))) (l := rest)
  have hle := congrArg List.length hsplit
  rw [List.length_append] at hle
  simp only [Nat.add_comm 1, List.drop_succ_cons, List.take_succ_cons, List.length_cons]
  refine ⟨by omega, by omega, ?_, fun other hother => ?_⟩
  · intro b hb
    have hnot := List.head?_dropWhile_not (· != ('\n' : UInt8)) rest
    rw [drop_length_takeWhile] at hb
    rw [hb] at hnot
    simpa using hnot
  · have htake := congrArg (List.take (rest.takeWhile (· != ('\n' : UInt8))).length) hsplit
    rw [List.take_left] at htake
    rw [← htake, List.cons_append]
    refine comment_eq_some_iff.mpr ⟨hescaped, _, rfl, ?_⟩
    rw [List.takeWhile_append_of_pos (List.all_eq_true.mp List.all_takeWhile)]
    cases other with
    | nil => simp [Nat.add_comm]
    | cons b others => simp [hother b rfl, Nat.add_comm]

theorem inlineMath_eq_some_iff {context : LeftContext} {text : Text}
    {construct : Construct} :
    inlineMath context text = some construct ↔
      ∃ b rest, text = b :: rest ∧ isLoneDollar context text = true ∧
        ∃ distance, distance? isLoneDollar (context.push b) rest = some distance ∧
          construct = ⟨distance + 2, []⟩ := by
  cases text with
  | nil => simp [inlineMath]
  | cons b rest =>
      rw [inlineMath]
      by_cases hb : isLoneDollar context (b :: rest) = true
      · rw [if_pos hb, Option.map_eq_some_iff]
        simp [hb, eq_comm]
      · simp [hb]

theorem isLoneDollar_congr {context : LeftContext} {b : UInt8} {rest other : Text}
    (h : rest.head? = other.head?) :
    isLoneDollar context (b :: rest) = isLoneDollar context (b :: other) := by
  rw [isLoneDollar, isLoneDollar, h]

theorem inlineMath_spec {context : LeftContext} {text : Text} {construct : Construct}
    (h : inlineMath context text = some construct) :
    0 < construct.length ∧ construct.length ≤ text.length ∧
      (text.drop construct.length).head? ≠ some ('$' : UInt8) ∧
        ∀ other, other.head? ≠ some ('$' : UInt8) →
          inlineMath context (text.take construct.length ++ other) = some construct := by
  obtain ⟨b, rest, rfl, hlone, distance, hdistance, rfl⟩ := inlineMath_eq_some_iff.mp h
  obtain ⟨hlt, hclose⟩ := distance?_spec hdistance
  obtain ⟨last, behind, hlast⟩ : ∃ last behind, rest.drop distance = last :: behind :=
    List.exists_cons_of_length_pos (by rw [List.length_drop]; omega)
  have hbehind : rest.drop (distance + 1) = behind := by
    rw [← List.drop_drop, hlast]
    rfl
  rw [hlast] at hclose
  have hnext : behind.head? ≠ some ('$' : UInt8) := by
    simp only [isLoneDollar, Bool.and_eq_true, bne_iff_ne, ne_eq] at hclose
    exact hclose.1.2
  refine ⟨by simp, by simpa [Nat.succ_le_iff] using hlt, by rwa [List.drop_succ_cons, hbehind],
    fun other hother => ?_⟩
  rw [List.take_succ_cons, List.cons_append]
  refine inlineMath_eq_some_iff.mpr ⟨b, _, rfl, ?_, distance, ?_, rfl⟩
  · rwa [isLoneDollar_congr (head?_take_append (Nat.succ_pos _) hlt other)]
  · refine distance?_take_append hdistance (Nat.lt_succ_self _) other
      fun offset hoffset context => ?_
    obtain ⟨first, inner, hinner⟩ : ∃ first inner, rest.drop offset = first :: inner :=
      List.exists_cons_of_length_pos (by rw [List.length_drop]; omega)
    rw [hinner, Nat.succ_sub hoffset, List.take_succ_cons, List.cons_append]
    rcases Nat.eq_or_lt_of_le hoffset with rfl | hbefore
    · -- At the closing dollar the byte behind is another one, but no dollar.
      rw [hlast] at hinner
      cases hinner
      simp only [Nat.sub_self, List.take_zero, List.nil_append, isLoneDollar,
        bne_iff_ne.mpr hother, bne_iff_ne.mpr hnext]
    · refine isLoneDollar_congr (head?_take_append (by omega) ?_ other)
      have hlength := congrArg List.length hinner
      rw [List.length_drop, List.length_cons] at hlength
      omega

/-- All but three recognizers look at no byte behind their construct. -/
theorem isSelfContained_of_mem_table {entry : RegionKind × Recognizer}
    (hentry : entry ∈ table) :
    entry = (.comment, comment) ∨ entry = (.definition, newCommand) ∨
      entry = (.inlineMath, inlineMath) ∨ IsSelfContained entry.2 := by
  simp only [table, List.mem_cons, List.not_mem_nil, or_false] at hentry
  rcases hentry with rfl | rfl | rfl | rfl | rfl | rfl | rfl | rfl | rfl
  · exact .inl rfl
  · exact .inr (.inl rfl)
  · exact .inr (.inr (.inr definition_isSelfContained))
  · refine .inr (.inr (.inr ?_))
    simp only [displayMath_eq_fenced]
    exact fenced_isSelfContained (by decide) (by decide)
  · exact .inr (.inr (.inl rfl))
  · exact .inr (.inr (.inr (fenced_isSelfContained (by decide) (by decide))))
  · exact .inr (.inr (.inr (fenced_isSelfContained (by decide) (by decide))))
  · exact .inr (.inr (.inr environment_isSelfContained))
  · exact .inr (.inr (.inr command_isSelfContained))

end Recognizer

end LatexIntegrity
