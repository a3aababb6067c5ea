import LatexIntegrity.Proofs.Region.Ends

/-!
# Constructs survive changes behind them

A construct is found again when the text behind it changes, provided that a comment
is still followed by the end of a line, inline mathematics by no dollar, and a
definition command by no further arguments.  Text that is added behind takes no
construct away.
-/

namespace LatexIntegrity

namespace Recognizer

variable {context : LeftContext} {text : Text} {construct : Construct}

/-! ## What recognizers ask of the context -/

theorem context_irrelevant {entry : RegionKind × Recognizer} (hentry : entry ∈ table)
    {other : LeftContext} (hescaped : other.escaped = context.escaped)
    (hdollar : text.head? ≠ some ('$' : UInt8)) : entry.2 other text = entry.2 context text := by
  have hfenced : ∀ opener closer : Text,
      fenced opener closer other text = fenced opener closer context text := by
    intro opener closer
    have hopener : (other.pushAll opener).escaped = (context.pushAll opener).escaped := by
      induction opener generalizing other context with
      | nil => exact hescaped
      | cons b rest ih => exact ih (by simp [hescaped])
    rw [fenced, fenced, hescaped, unescapedDistance?_context hopener]
  simp only [table, List.mem_cons, List.not_mem_nil, or_false] at hentry
  rcases hentry with rfl | rfl | rfl | rfl | rfl | rfl | rfl | rfl | rfl
  · cases text with
    | nil => rfl
    | cons b rest => simp only [comment, hescaped]
  · simp only [newCommand, hescaped]
  · simp only [definition, hescaped]
  · simp only [displayMath_eq_fenced, hfenced]
  · cases text with
    | nil => rfl
    | cons b rest =>
        have hb : (b == ('$' : UInt8)) = false := by simpa using hdollar
        simp [inlineMath, isLoneDollar, hb]
  · exact hfenced _ _
  · exact hfenced _ _
  · have hiff : ∀ construct, environment other text = some construct ↔
        environment context text = some construct := by
      intro construct
      rw [environment_eq_some_iff, environment_eq_some_iff, hfenced]
    exact Option.ext hiff
  · simp only [command, hescaped]

end Recognizer

variable {context : LeftContext} {body rest : Text} {kind : RegionKind} {name : Text}

theorem construct?_context {other : LeftContext} {text : Text}
    (hescaped : other.escaped = context.escaped)
    (hdollar : text.head? = some ('$' : UInt8) → other = context) :
    construct? other text = construct? context text := by
  by_cases hhead : text.head? = some ('$' : UInt8)
  · rw [hdollar hhead]
  · have hsame : ∀ kind construct, construct? other text = some (kind, construct) ↔
        construct? context text = some (kind, construct) := by
      intro kind construct
      rw [construct?_eq_some_iff, construct?_eq_some_iff]
      refine exists_congr fun recognize => and_congr_right fun hentry => ?_
      exact iff_of_eq (congrArg (· = some construct)
        (Recognizer.context_irrelevant hentry hescaped hhead))
    exact Option.ext fun found => hsame found.1 found.2

/--
A construct is found again if what follows asks for the same end, which depends on the kind
of the construct.
-/
theorem construct?_again_of_kind
    (h : construct? context (body ++ rest) = some (kind, ⟨body.length, name⟩)) {rest' : Text}
    (hline : kind = .comment → (∀ b, rest.head? = some b → b = ('\n' : UInt8)) →
      ∀ b, rest'.head? = some b → b = ('\n' : UInt8))
    (hdollar : kind = .inlineMath → (context.pushAll body).dollar = true →
      rest.head? ≠ some ('$' : UInt8) → rest'.head? ≠ some ('$' : UInt8))
    (harguments : kind = .definition → context.pushAll body = ⟨false, false⟩ →
      Recognizer.definitionArguments? rest = none →
        Recognizer.definitionArguments? rest' = none) :
    construct? context (body ++ rest') = some (kind, ⟨body.length, name⟩) := by
  rw [construct?_eq_some_iff] at h ⊢
  obtain ⟨recognize, hentry, h⟩ := h
  refine ⟨recognize, hentry, ?_⟩
  rcases Recognizer.isSelfContained_of_mem_table hentry with hsame | hsame | hsame | hself
  · cases hsame
    obtain ⟨-, -, hend, hagain⟩ := Recognizer.comment_spec h
    rw [List.drop_left] at hend
    simpa using hagain rest' (hline rfl hend)
  · cases hsame
    obtain ⟨-, hend, hagain⟩ := Recognizer.newCommand_spec h
    obtain ⟨inner, hinner⟩ := Recognizer.newCommand_take_eq h
    rw [List.drop_left] at hend
    rw [List.take_left] at hinner
    have hcontext : context.pushAll body = ⟨false, false⟩ := by
      rw [hinner, LeftContext.pushAll_append]
      rfl
    simpa using hagain rest' (harguments rfl hcontext hend)
  · cases hsame
    obtain ⟨-, -, hend, hagain⟩ := Recognizer.inlineMath_spec h
    obtain ⟨inner, hinner⟩ := Recognizer.inlineMath_take_eq h
    rw [List.drop_left] at hend
    rw [List.take_left] at hinner
    have hcontext : (context.pushAll body).dollar = true := by
      rw [hinner, LeftContext.pushAll_append]
      rfl
    simpa using hagain rest' (hdollar rfl hcontext hend)
  · simpa using hself.again h rest'

theorem construct?_again
    (h : construct? context (body ++ rest) = some (kind, ⟨body.length, name⟩)) {rest' : Text}
    (hline : (∀ b, rest.head? = some b → b = ('\n' : UInt8)) →
      ∀ b, rest'.head? = some b → b = ('\n' : UInt8))
    (hdollar : (context.pushAll body).dollar = true → rest.head? ≠ some ('$' : UInt8) →
      rest'.head? ≠ some ('$' : UInt8))
    (harguments : context.pushAll body = ⟨false, false⟩ →
      Recognizer.definitionArguments? rest = none →
        Recognizer.definitionArguments? rest' = none) :
    construct? context (body ++ rest') = some (kind, ⟨body.length, name⟩) :=
  construct?_again_of_kind h (fun _ => hline) (fun _ => hdollar) fun _ => harguments

/-! ## More text behind a construct -/

theorem IsLocal.append {scan : Text → Option Nat} (hscan : IsLocal scan) {text : Text}
    {length : Nat} (h : scan text = some length) (other : Text) :
    scan (text ++ other) = some length := by
  have hagain := hscan.again h (text.drop length ++ other)
  rwa [← List.append_assoc, List.take_append_drop] at hagain

namespace Recognizer

variable {context : LeftContext} {text : Text}

theorem IsSelfContained.append {recognize : Recognizer} (hself : IsSelfContained recognize)
    {construct : Construct} (h : recognize context text = some construct) (other : Text) :
    recognize context (text ++ other) = some construct := by
  have hagain := hself.again h (text.drop construct.length ++ other)
  rwa [← List.append_assoc, List.take_append_drop] at hagain

theorem isSome_definitionArguments?_append (h : (definitionArguments? text).isSome = true)
    (other : Text) : (definitionArguments? (text ++ other)).isSome = true := by
  simp only [Option.isSome_iff_exists, definitionArguments?_eq_some_iff] at h
  obtain ⟨length, h⟩ := h
  induction h with
  | last hgroup _ | brace hgroup _ _ =>
      exact isSome_definitionArguments?_of_braced
        (Option.isSome_of_eq_some ((Group.braced?_isLocal 1).append hgroup other))
  | bracket hgroup _ ih =>
      have hlocal := Group.flat?_isLocal '[' ']'
      rw [isSome_definitionArguments?_of_optional (hlocal.append hgroup other),
        List.drop_append_of_le_length (hlocal.fits hgroup)]
      exact ih

theorem isSome_newCommand_append (h : (newCommand context text).isSome = true)
    (other : Text) : (newCommand context (text ++ other)).isSome = true := by
  obtain ⟨construct, hconstruct⟩ := Option.isSome_iff_exists.mp h
  obtain ⟨hescaped, hword, arguments, harguments, -⟩ := newCommand_eq_some_iff.mp hconstruct
  have hhead := head?_eq_of_controlWord_ne_nil
    (controlWord_ne_nil_of_mem_definitionCommands hword)
  have hbehind : afterControlWord text ≠ [] := by
    intro hnil
    rw [hnil] at harguments
    simp [definitionArguments?] at harguments
  obtain ⟨hword', hafter⟩ := controlWord_append hhead hbehind other
  have hstar : starLength (afterControlWord text ++ other) =
      starLength (afterControlWord text) := by
    rw [starLength, starLength, List.head?_append_of_ne_nil _ hbehind]
  have hfit : starLength (afterControlWord text) ≤ (afterControlWord text).length := by
    have hpos := List.length_pos_iff.mpr hbehind
    rw [starLength]
    split <;> omega
  have hmore := isSome_definitionArguments?_append (by rw [harguments]; rfl) other
  obtain ⟨length, hlength⟩ := Option.isSome_iff_exists.mp hmore
  rw [newCommand_eq_some_iff.mpr ⟨hescaped, by rwa [hword'], length, ?_, rfl⟩]
  · rfl
  · rw [hafter, hstar, List.drop_append_of_le_length hfit]
    exact hlength

theorem le_newCommand_append {construct : Construct} (h : newCommand context text = some construct)
    (other : Text) :
    ∃ longer, newCommand context (text ++ other) = some longer ∧
      construct.length ≤ longer.length := by
  obtain ⟨longer, hlonger⟩ := Option.isSome_iff_exists.mp
    (isSome_newCommand_append (by rw [h]; rfl) other)
  refine ⟨longer, hlonger, ?_⟩
  by_contra hlt
  have hfit := (newCommand_spec h).1
  obtain ⟨-, hend, hagain⟩ := newCommand_spec hlonger
  rw [List.drop_append_of_le_length (by omega)] at hend
  rw [List.take_append_of_le_length (by omega)] at hagain
  -- Without the text that is added, the shorter command would end at the same place.
  have hnone : definitionArguments? (text.drop longer.length) = none := by
    rw [← Option.not_isSome_iff_eq_none]
    intro hsome
    have hmore := isSome_definitionArguments?_append hsome other
    rw [hend] at hmore
    cases hmore
  have hsame := hagain _ hnone
  rw [List.take_append_drop, h] at hsame
  cases hsame
  omega

end Recognizer

theorem isSome_construct?_append {context : LeftContext} {text : Text} (other : Text)
    (h : (construct? context text).isSome = true)
    (hdollar : text.getLast? = some ('$' : UInt8) → other.head? ≠ some ('$' : UInt8)) :
    (construct? context (text ++ other)).isSome = true := by
  obtain ⟨⟨kind, construct⟩, hfound⟩ := Option.isSome_iff_exists.mp h
  obtain ⟨recognize, hentry, hfound⟩ := construct?_eq_some_iff.mp hfound
  suffices hsome : (recognize context (text ++ other)).isSome = true by
    obtain ⟨construct', hfound'⟩ := Option.isSome_iff_exists.mp hsome
    rw [construct?_eq_some_iff.mpr ⟨recognize, hentry, hfound'⟩]
    rfl
  rcases Recognizer.isSelfContained_of_mem_table hentry with hsame | hsame | hsame | hself
  · cases hsame
    obtain ⟨hescaped, rest, rfl, -⟩ := Recognizer.comment_eq_some_iff.mp hfound
    simp [Recognizer.comment, hescaped]
  · cases hsame
    exact Recognizer.isSome_newCommand_append (by rw [hfound]; rfl) other
  · cases hsame
    obtain ⟨-, -, hend, hagain⟩ := Recognizer.inlineMath_spec hfound
    have hbehind : (text.drop construct.length ++ other).head? ≠ some ('$' : UInt8) := by
      cases hrest : text.drop construct.length with
      | cons b rest => simpa [hrest] using hend
      | nil =>
          obtain ⟨inner, hinner⟩ := Recognizer.inlineMath_take_eq hfound
          have htext := List.take_append_drop construct.length text
          rw [hrest, hinner, List.append_nil] at htext
          exact hdollar (by simp [← htext])
    have hfound' := hagain _ hbehind
    rw [← List.append_assoc, List.take_append_drop] at hfound'
    rw [hfound']
    rfl
  · have hself : Recognizer.IsSelfContained recognize := hself
    rw [hself.append hfound]
    rfl

/-! ## Environments -/

def Environment.wrap (name inside : Text) : Text :=
  (DelimiterToken.mk .opening name).source ++ (inside ++ (DelimiterToken.mk .closing name).source)

theorem Environment.pushAll_source (token : DelimiterToken) :
    context.pushAll token.source = ⟨false, false⟩ := by
  have hsource : token.source =
      ('\\' : UInt8) :: (token.side.word ++ ('{' : UInt8) :: token.name) ++ [('}' : UInt8)] := by
    rw [DelimiterToken.source_eq]
    simp
  rw [hsource, LeftContext.pushAll_append]
  rfl

theorem Environment.pushAll_wrap (inside : Text) :
    context.pushAll (wrap name inside) = ⟨false, false⟩ := by
  rw [wrap, LeftContext.pushAll_append, LeftContext.pushAll_append, pushAll_source]

theorem construct?_wrap {inside : Text} (hescaped : context.escaped = false)
    (hname : isShieldedEnvironment name = true)
    (h : unescapedDistance? (DelimiterToken.mk .closing name).source ⟨false, false⟩
      (inside ++ ((DelimiterToken.mk .closing name).source ++ rest)) = some inside.length) :
    construct? context (Environment.wrap name inside ++ rest) =
      some (.environment, ⟨(Environment.wrap name inside).length, name⟩) := by
  refine construct?_eq_some_iff.mpr ⟨Recognizer.environment, by simp [Recognizer.table],
    Recognizer.environment_of_fenced hname (Recognizer.fenced_eq_some_iff.mpr ⟨hescaped, ?_, ?_⟩)⟩
  · rw [Environment.wrap, List.append_assoc]
    exact List.prefix_append _ _
  · refine ⟨inside.length, ?_, ?_⟩
    · rw [Environment.wrap, List.append_assoc, List.drop_left, Environment.pushAll_source,
        List.append_assoc]
      exact h
    · simp [Environment.wrap, Nat.add_assoc]

theorem exists_wrap_of_construct? {text : Text} {length : Nat}
    (h : construct? context text = some (.environment, ⟨length, name⟩)) :
    isShieldedEnvironment name = true ∧ ∃ inside rest, text = Environment.wrap name inside ++ rest ∧
      length = (Environment.wrap name inside).length ∧
        unescapedDistance? (DelimiterToken.mk .closing name).source ⟨false, false⟩
          (inside ++ ((DelimiterToken.mk .closing name).source ++ rest)) = some inside.length := by
  obtain ⟨recognize, hentry, h⟩ := construct?_eq_some_iff.mp h
  have hrecognize : recognize = Recognizer.environment := by
    simpa [Recognizer.table] using hentry
  subst hrecognize
  obtain ⟨hname, hfenced⟩ := Recognizer.environment_eq_some_iff.mp h
  obtain ⟨-, ⟨inner, rfl⟩, distance, hdistance, hlength⟩ :=
    Recognizer.fenced_eq_some_iff.mp hfenced
  rw [List.drop_left, Environment.pushAll_source] at hdistance
  obtain ⟨rest, hrest⟩ := (unescapedDistance?_spec hdistance).2
  have hfit := unescapedDistance?_add_le hdistance
  have hinner : inner.take distance ++ ((DelimiterToken.mk .closing name).source ++ rest) =
      inner := by rw [hrest, List.take_append_drop]
  have htake : (inner.take distance).length = distance := List.length_take_of_le (by omega)
  refine ⟨hname, inner.take distance, rest, ?_, ?_, ?_⟩
  · rw [Environment.wrap, List.append_assoc, List.append_assoc, hinner]
  · refine (Construct.mk.inj hlength).1.trans ?_
    simp [Environment.wrap, htake, Nat.add_assoc]
  · rw [hinner, htake, hdistance]

theorem exists_wrap_of_construct?_append {body rest : Text}
    (h : construct? context (body ++ rest) = some (.environment, ⟨body.length, name⟩)) :
    isShieldedEnvironment name = true ∧ ∃ inside, body = Environment.wrap name inside := by
  obtain ⟨hname, inside, rest', hsplit, hlength, -⟩ := exists_wrap_of_construct? h
  exact ⟨hname, inside, (List.append_inj hsplit hlength).1⟩

end LatexIntegrity
