import LatexIntegrity.Proofs.Markup.Groups
import LatexIntegrity.Proofs.Region.Locality

/-!
# What commands and definitions look like

The bytes of a shielded command and of a definition form a language: a control word and
groups behind it.
-/

namespace LatexIntegrity.Recognizer

open LatexIntegrity.Group

theorem take_controlWord {text : Text} (h : controlWord text ≠ []) (length : Nat) :
    text.take (1 + (controlWord text).length + length) =
      ('\\' : UInt8) :: (controlWord text ++ (afterControlWord text).take length) := by
  have htake := congrArg (List.take (1 + (controlWord text).length + length))
    (eq_cons_controlWord_append (head?_eq_of_controlWord_ne_nil h))
  rwa [Nat.add_assoc, Nat.add_comm 1, List.take_succ_cons, List.take_length_add_append,
    ← Nat.add_comm 1, ← Nat.add_assoc] at htake

/-! ## Citations -/

def IsCitationArguments (count : Nat) (source : Text) : Prop :=
  ∃ (options : List Text) (key : Text), source = options.flatten ++ key ∧
    options.length ≤ count ∧ (∀ option ∈ options, IsFlat '[' ']' option) ∧ IsFlat '{' '}' key

def star (starred : Bool) : Text := if starred then ['*'] else []

def IsCitation (starred : Bool) (source : Text) : Prop :=
  ∃ letters arguments : Text, (∀ b ∈ letters, Ascii.isLower b = true) ∧
    IsCitationArguments 2 arguments ∧
      source = ('\\' : UInt8) :: ("cite" ++ letters ++ star starred ++ arguments)

theorem isCitationArguments_of_citationArguments? {count length : Nat} {text : Text}
    (h : citationArguments? count text = some length) :
    IsCitationArguments count (text.take length) := by
  induction count generalizing text length with
  | zero =>
      have hkey : argument? text = some length := by
        simpa [citationArguments?, optionalArguments?] using h
      exact ⟨[], text.take length, rfl, Nat.le_refl 0, List.forall_mem_nil _,
        isFlat_of_flat? hkey⟩
  | succ count ih =>
      rw [citationArguments?_succ] at h
      split at h
      · obtain ⟨first, hfirst, h⟩ := Option.bind_eq_some_iff.mp h
        obtain ⟨behind, hbehind, h⟩ := Option.bind_eq_some_iff.mp h
        cases h
        obtain ⟨options, key, hsource, hcount, hoptions, hkey⟩ := ih hbehind
        refine ⟨text.take first :: options, key, ?_, Nat.succ_le_succ hcount,
          List.forall_mem_cons.mpr ⟨isFlat_of_flat? hfirst, hoptions⟩, hkey⟩
        rw [List.take_add, hsource, List.flatten_cons, List.append_assoc]
      · exact ⟨[], text.take length, rfl, Nat.zero_le _, List.forall_mem_nil _,
          isFlat_of_flat? h⟩

theorem head?_of_isFlat {opener closer : UInt8} {group : Text} (h : IsFlat opener closer group)
    (rest : Text) : (group ++ rest).head? = some opener := by
  obtain ⟨body, rfl, -⟩ := h
  rfl

theorem citationArguments?_append {count : Nat} {source : Text}
    (h : IsCitationArguments count source) (rest : Text) :
    citationArguments? count (source ++ rest) = some source.length := by
  obtain ⟨options, key, rfl, hcount, hoptions, hkey⟩ := h
  induction options generalizing count with
  | nil =>
      have hread : argument? (key ++ rest) = some key.length := flat?_append hkey rest
      cases count with
      | zero => simp [citationArguments?, optionalArguments?, hread]
      | succ count =>
          rw [List.flatten_nil, List.nil_append, citationArguments?_succ, head?_of_isFlat hkey,
            if_neg (by decide)]
          exact hread
  | cons option options ih =>
      obtain ⟨hoption, hoptions⟩ := List.forall_mem_cons.mp hoptions
      obtain ⟨count, rfl⟩ := Nat.exists_eq_succ_of_ne_zero
        (Nat.ne_of_gt (Nat.lt_of_lt_of_le (Nat.succ_pos _) hcount))
      have hread : optional? (option ++ (options.flatten ++ key ++ rest)) = some option.length :=
        flat?_append hoption _
      have hsplit : (option :: options).flatten ++ key ++ rest =
          option ++ (options.flatten ++ key ++ rest) := by simp
      rw [citationArguments?_succ, hsplit, if_pos (head?_of_isFlat hoption _), hread,
        Option.bind_eq_bind, Option.bind_some, List.drop_left,
        ih (Nat.le_of_succ_le_succ hcount) hoptions]
      simp

theorem exists_letters_of_isCitationCommand {word : Text} (h : isCitationCommand word = true) :
    ∃ letters : Text, word = "cite" ++ letters ∧ ∀ b ∈ letters, Ascii.isLower b = true := by
  have hlength : (Text.ofString "cite").length = 4 := by decide
  rw [isCitationCommand, Bool.and_eq_true, List.isPrefixOf_iff_prefix, List.all_eq_true] at h
  obtain ⟨⟨letters, rfl⟩, hlower⟩ := h
  rw [← hlength, List.drop_left] at hlower
  exact ⟨letters, rfl, hlower⟩

/-! ## Shielded commands -/

inductive IsCommand : Text → Prop where
  | single {word argument : Text} : word ∈ singleArgumentCommands → IsFlat '{' '}' argument →
      IsCommand (('\\' : UInt8) :: (word ++ argument))
  | citation {source : Text} : IsCitation false source → IsCommand source
  | link {address label : Text} : IsFlat '{' '}' address → IsFlat '{' '}' label →
      IsCommand (('\\' : UInt8) :: ("href" ++ (address ++ label)))

theorem isCommand_of_command {context : LeftContext} {text : Text} {construct : Construct}
    (h : command context text = some construct) : IsCommand (text.take construct.length) := by
  obtain ⟨-, hword, arguments, harguments, rfl⟩ := command_eq_some_iff.mp h
  rw [take_controlWord hword]
  rw [commandArguments?_eq] at harguments
  split at harguments
  · next hsingle =>
      exact .single (List.contains_iff_mem.mp hsingle) (isFlat_of_flat? harguments)
  · split at harguments
    · next hcitation =>
        obtain ⟨letters, hletters, hlower⟩ := exists_letters_of_isCitationCommand hcitation
        refine .citation ⟨letters, _, hlower,
          isCitationArguments_of_citationArguments? harguments, ?_⟩
        rw [hletters]
        simp [star]
    · split at harguments
      · next hlink =>
          obtain ⟨first, hfirst, h⟩ := Option.bind_eq_some_iff.mp harguments
          obtain ⟨second, hsecond, h⟩ := Option.bind_eq_some_iff.mp h
          cases h
          rw [beq_iff_eq.mp hlink, List.take_add]
          exact .link (isFlat_of_flat? hfirst) (isFlat_of_flat? hsecond)
      · cases harguments

/-! ## Definitions -/

def IsDefinitionArguments (source : Text) : Prop :=
  ∃ (groups : List Text) (last : Text), source = groups.flatten ++ last ∧
    (∀ group ∈ groups, IsBraced 1 group ∨ IsFlat '[' ']' group) ∧ IsBraced 1 last

/--
A definition in front of `behind`.  A definition command takes all the arguments that
stand behind it, so that no more of them follow.
-/
inductive IsDefinition (behind : Text) : Text → Prop where
  | command {word arguments : Text} (starred : Bool) : word ∈ definitionCommands →
      IsDefinitionArguments arguments →
        (∀ more, IsDefinitionArguments more → ¬more <+: behind) →
          IsDefinition behind (('\\' : UInt8) :: (word ++ (star starred ++ arguments)))
  | parametric {name parameters body : Text} : name ≠ [] → (∀ b ∈ name, isMacroNameByte b = true) →
      ('{' : UInt8) ∉ parameters → IsBraced 1 body →
        IsDefinition behind
          (('\\' : UInt8) :: ("def" ++ ('\\' : UInt8) :: (name ++ (parameters ++ body))))

theorem head?_of_isBraced {limit : Nat} {group : Text} (h : IsBraced limit group)
    (rest : Text) : (group ++ rest).head? = some ('{' : UInt8) := by
  obtain ⟨body, rfl, -⟩ := h
  rfl

theorem isDefinitionArguments_of_definitionArguments? {text : Text} {length : Nat}
    (h : definitionArguments? text = some length) : IsDefinitionArguments (text.take length) := by
  have hcons : ∀ {group source : Text}, (IsBraced 1 group ∨ IsFlat '[' ']' group) →
      IsDefinitionArguments source → IsDefinitionArguments (group ++ source) := by
    rintro group source hgroup ⟨groups, last, rfl, hgroups, hlast⟩
    exact ⟨group :: groups, last, by simp, List.forall_mem_cons.mpr ⟨hgroup, hgroups⟩, hlast⟩
  rw [definitionArguments?_eq_some_iff] at h
  induction h with
  | last hgroup _ => exact ⟨[], _, rfl, List.forall_mem_nil _, isBraced_of_braced? hgroup⟩
  | brace hgroup _ ih =>
      rw [List.take_add]
      exact hcons (.inl (isBraced_of_braced? hgroup)) ih
  | bracket hgroup _ ih =>
      rw [List.take_add]
      exact hcons (.inr (isFlat_of_flat? hgroup)) ih

theorem definitionArguments?_ne_none {source : Text} (h : IsDefinitionArguments source)
    (rest : Text) : definitionArguments? (source ++ rest) ≠ none := by
  obtain ⟨groups, last, rfl, hgroups, hlast⟩ := h
  have hread : ∀ {group : Text}, IsBraced 1 group → ∀ behind,
      definitionArguments? (group ++ behind) ≠ none := by
    intro group hgroup behind
    rw [definitionArguments?_brace (head?_of_isBraced hgroup _), braced?_append hgroup,
      Option.bind_some]
    split <;> exact Option.some_ne_none _
  induction groups with
  | nil => exact hread hlast rest
  | cons group groups ih =>
      obtain ⟨hgroup, hgroups⟩ := List.forall_mem_cons.mp hgroups
      rw [List.flatten_cons, List.append_assoc, List.append_assoc]
      rcases hgroup with hgroup | hgroup
      · exact hread hgroup _
      · have hoption : optional? (group ++ (groups.flatten ++ (last ++ rest))) =
            some group.length := flat?_append hgroup _
        have hbehind := ih hgroups
        rw [List.append_assoc] at hbehind
        rw [definitionArguments?_bracket (head?_of_isFlat hgroup _), hoption, Option.bind_some,
          List.drop_left, ne_eq, Option.map_eq_none_iff]
        exact hbehind

theorem exists_take_starLength (text : Text) :
    ∃ starred, text.take (starLength text) = star starred := by
  rw [starLength]
  split
  · next hstar =>
      obtain ⟨rest, rfl⟩ := List.head?_eq_some_iff.mp hstar
      exact ⟨true, rfl⟩
  · exact ⟨false, rfl⟩

theorem isDefinition_of_newCommand {context : LeftContext} {text : Text} {construct : Construct}
    (h : newCommand context text = some construct) :
    IsDefinition (text.drop construct.length) (text.take construct.length) := by
  have hend := (newCommand_spec h).2.1
  obtain ⟨-, hword, arguments, harguments, hconstruct⟩ := newCommand_eq_some_iff.mp h
  obtain ⟨starred, hstar⟩ := exists_take_starLength (afterControlWord text)
  have htake : text.take construct.length =
      ('\\' : UInt8) :: (controlWord text ++ (star starred ++
        ((afterControlWord text).drop (starLength (afterControlWord text))).take arguments)) := by
    rw [hconstruct, take_controlWord (controlWord_ne_nil_of_mem_definitionCommands hword),
      List.take_add, hstar]
  rw [htake]
  refine .command starred (List.contains_iff_mem.mp hword)
    (isDefinitionArguments_of_definitionArguments? harguments) ?_
  rintro more hmore ⟨rest, hrest⟩
  rw [← hrest] at hend
  exact definitionArguments?_ne_none hmore rest hend

theorem isDefinition_of_definition {context : LeftContext} {text : Text} {construct : Construct}
    (h : definition context text = some construct) (behind : Text) :
    IsDefinition behind (text.take construct.length) := by
  obtain ⟨-, hword, source, group, hafter, hname, hgroup, rfl⟩ := definition_eq_some_iff.mp h
  have hdef : (Text.ofString "def").length = 3 := by decide
  have hne : controlWord text ≠ [] := by
    rw [hword]
    decide
  generalize hrun : source.takeWhile isMacroNameByte = name at hname
  have hbody := isBraced_of_braced? hgroup
  have hsplit : source.take (definitionHead source + group) =
      name ++ ((source.drop name.length).takeWhile (· != ('{' : UInt8)) ++
        (source.drop (definitionHead source)).take group) := by
    have hprefix : source.take name.length = name := by
      rw [← hrun]
      exact take_length_takeWhile _ _
    rw [List.take_add, definitionHead, hrun, List.take_add, hprefix, List.append_assoc,
      take_length_takeWhile]
  have htake : text.take (5 + definitionHead source + group) = ('\\' : UInt8) :: ("def" ++
      ('\\' : UInt8) :: source.take (definitionHead source + group)) := by
    rw [show 5 + definitionHead source + group =
      1 + (controlWord text).length + (definitionHead source + group + 1) by
        rw [hword, hdef]
        omega, take_controlWord hne, hafter, hword, List.take_succ_cons]
  rw [htake, hsplit]
  refine .parametric hname ?_ ?_ hbody
  · intro b hb
    rw [← hrun] at hb
    exact List.all_eq_true.mp List.all_takeWhile b hb
  · intro hmem
    simpa using List.all_eq_true.mp List.all_takeWhile _ hmem

end LatexIntegrity.Recognizer
