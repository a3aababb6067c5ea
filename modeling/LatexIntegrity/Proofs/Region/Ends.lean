import LatexIntegrity.Proofs.Region.Precedence

/-!
# The last byte of a construct

A construct ends in the byte that closes it, so that only a comment can end in a
backslash.  Behind any other construct nothing is escaped.
-/

namespace LatexIntegrity

theorem take_add_eq_append {text : Text} {first second : Nat} {last : Text}
    (h : ∃ inner, (text.drop first).take second = inner ++ last) :
    ∃ inner, text.take (first + second) = inner ++ last := by
  obtain ⟨inner, hinner⟩ := h
  exact ⟨text.take first ++ inner, by rw [List.take_add, hinner, List.append_assoc]⟩

namespace Group

theorem closing?_take_eq {limit depth : Nat} {text : Text} {length : Nat}
    (h : closing? limit depth text = some length) :
    ∃ inner, text.take length = inner ++ [('}' : UInt8)] := by
  rw [closing?_eq_some_iff] at h
  induction h with
  | here hstep => exact ⟨[], by simp [eq_of_braceStep_closes hstep]⟩
  | literal b _ ih =>
      obtain ⟨inner, hinner⟩ := ih
      exact ⟨('\\' : UInt8) :: b :: inner, by simp [hinner]⟩
  | @byte _ _ _ b _ _ _ _ ih =>
      obtain ⟨inner, hinner⟩ := ih
      exact ⟨b :: inner, by simp [hinner]⟩

theorem braced?_take_eq {limit : Nat} {text : Text} {length : Nat}
    (h : braced? limit text = some length) :
    ∃ inner, text.take length = inner ++ [('}' : UInt8)] := by
  obtain ⟨rest, shorter, rfl, hshorter, rfl⟩ := braced?_eq_some_iff_closing?.mp h
  obtain ⟨inner, hinner⟩ := closing?_take_eq hshorter
  exact ⟨('{' : UInt8) :: inner, by simp [hinner]⟩

theorem flat?_take_eq {opener closer : UInt8} {text : Text} {length : Nat}
    (h : flat? opener closer text = some length) :
    ∃ inner, text.take length = inner ++ [closer] := by
  obtain ⟨rest, index, rfl, hindex, rfl⟩ := flat?_eq_some_iff_findIdx?.mp h
  obtain ⟨hlt, hcloser, -⟩ := List.findIdx?_eq_some_iff_getElem.mp hindex
  refine ⟨opener :: rest.take index, ?_⟩
  rw [List.take_succ_cons, ← List.take_append_getElem hlt, beq_iff_eq.mp hcloser]
  rfl

end Group

namespace Recognizer

theorem definitionArguments?_take_eq {text : Text} {length : Nat}
    (h : definitionArguments? text = some length) :
    ∃ inner, text.take length = inner ++ [('}' : UInt8)] := by
  rw [definitionArguments?_eq_some_iff] at h
  induction h with
  | last hgroup _ => exact Group.braced?_take_eq hgroup
  | brace _ _ ih => exact take_add_eq_append ih
  | bracket _ _ ih => exact take_add_eq_append ih

variable {context : LeftContext} {text : Text} {construct : Construct}

theorem newCommand_take_eq (h : newCommand context text = some construct) :
    ∃ inner, text.take construct.length = inner ++ [('}' : UInt8)] := by
  obtain ⟨-, hword, arguments, harguments, rfl⟩ := newCommand_eq_some_iff.mp h
  have hend := definitionArguments?_take_eq harguments
  rw [afterControlWord, List.drop_drop] at hend
  simp only [← Nat.add_assoc]
  exact take_add_eq_append hend

theorem inlineMath_take_eq (h : inlineMath context text = some construct) :
    ∃ inner, text.take construct.length = inner ++ [('$' : UInt8)] := by
  obtain ⟨b, rest, rfl, -, distance, hdistance, rfl⟩ := inlineMath_eq_some_iff.mp h
  obtain ⟨hlt, hclose⟩ := distance?_spec hdistance
  obtain ⟨last, behind, hlast⟩ : ∃ last behind, rest.drop distance = last :: behind :=
    List.exists_cons_of_length_pos (by rw [List.length_drop]; omega)
  rw [hlast] at hclose
  simp only [isLoneDollar, Bool.and_eq_true, beq_iff_eq] at hclose
  refine ⟨b :: rest.take distance, ?_⟩
  rw [List.take_succ_cons, List.take_add, hlast, hclose.1.1.1]
  rfl

theorem citationArguments?_take_eq {count length : Nat}
    (h : citationArguments? count text = some length) :
    ∃ inner, text.take length = inner ++ [('}' : UInt8)] := by
  obtain ⟨options, -, h⟩ := Option.bind_eq_some_iff.mp h
  obtain ⟨argument, hargument, h⟩ := Option.bind_eq_some_iff.mp h
  cases h
  exact take_add_eq_append (Group.flat?_take_eq hargument)

theorem commandArguments?_take_eq {word : Text} {length : Nat}
    (h : commandArguments? word text = some length) :
    ∃ inner, text.take length = inner ++ [('}' : UInt8)] := by
  rw [commandArguments?_eq] at h
  split at h
  · exact Group.flat?_take_eq h
  · split at h
    · exact citationArguments?_take_eq h
    · split at h
      · obtain ⟨first, -, h⟩ := Option.bind_eq_some_iff.mp h
        obtain ⟨second, hsecond, h⟩ := Option.bind_eq_some_iff.mp h
        cases h
        exact take_add_eq_append (Group.flat?_take_eq hsecond)
      · cases h

theorem command_take_eq (h : command context text = some construct) :
    ∃ inner, text.take construct.length = inner ++ [('}' : UInt8)] := by
  obtain ⟨-, -, arguments, harguments, rfl⟩ := command_eq_some_iff.mp h
  exact take_add_eq_append (commandArguments?_take_eq harguments)

theorem definition_take_eq (h : definition context text = some construct) :
    ∃ inner, text.take construct.length = inner ++ [('}' : UInt8)] := by
  obtain ⟨-, hword, behind, group, hafter, -, hgroup, rfl⟩ := definition_eq_some_iff.mp h
  have hdef : (Text.ofString "def").length = 3 := by decide
  rw [afterControlWord, hword, hdef] at hafter
  refine take_add_eq_append ?_
  rw [show 5 + definitionHead behind = 1 + 3 + (definitionHead behind + 1) by omega,
    ← List.drop_drop, hafter, List.drop_succ_cons]
  exact Group.braced?_take_eq hgroup

theorem fenced_take_eq {opener closer : Text} (h : fenced opener closer context text =
    some construct) : ∃ inner, text.take construct.length = inner ++ closer := by
  obtain ⟨-, -, distance, hdistance, rfl⟩ := fenced_eq_some_iff.mp h
  refine take_add_eq_append ⟨[], ?_⟩
  rw [← List.drop_drop]
  exact (List.prefix_iff_eq_take.mp (unescapedDistance?_spec hdistance).2).symm

theorem environment_take_eq (h : environment context text = some construct) :
    ∃ inner, text.take construct.length = inner ++ [('}' : UInt8)] := by
  obtain ⟨-, hfenced⟩ := environment_eq_some_iff.mp h
  obtain ⟨inner, hinner⟩ := fenced_take_eq hfenced
  refine ⟨inner ++ ('\\' : UInt8) :: (DelimiterSide.closing.word ++
    ('{' : UInt8) :: construct.name), ?_⟩
  rw [hinner, DelimiterToken.source_eq]
  simp

theorem take_eq_of_mem_table {entry : RegionKind × Recognizer} (hentry : entry ∈ table)
    (hkind : entry.1 ≠ .comment) (h : entry.2 context text = some construct) :
    ∃ (inner : Text) (last : UInt8),
      text.take construct.length = inner ++ [last] ∧ List.elem last "\x7d$)]" = true := by
  have hbrace : (∃ inner, text.take construct.length = inner ++ [('}' : UInt8)]) →
      ∃ (inner : Text) (last : UInt8),
        text.take construct.length = inner ++ [last] ∧ List.elem last "\x7d$)]" = true :=
    fun ⟨inner, hinner⟩ => ⟨inner, _, hinner, by decide⟩
  have hfenced : ∀ {opener : Text} (first last : UInt8), List.elem last "\x7d$)]" = true →
      fenced opener [first, last] context text = some construct →
        ∃ (inner : Text) (last : UInt8),
          text.take construct.length = inner ++ [last] ∧ List.elem last "\x7d$)]" = true := by
    intro opener first last hlast h
    obtain ⟨inner, hinner⟩ := fenced_take_eq h
    exact ⟨inner ++ [first], last, by rw [hinner]; simp, hlast⟩
  simp only [table, List.mem_cons, List.not_mem_nil, or_false] at hentry
  rcases hentry with rfl | rfl | rfl | rfl | rfl | rfl | rfl | rfl | rfl
  · exact absurd rfl hkind
  · exact hbrace (newCommand_take_eq h)
  · exact hbrace (definition_take_eq h)
  · simp only [displayMath_eq_fenced] at h
    exact hfenced '$' '$' (by decide) h
  · obtain ⟨inner, hinner⟩ := inlineMath_take_eq h
    exact ⟨inner, '$', hinner, by decide⟩
  · exact hfenced '\\' ')' (by decide) h
  · exact hfenced '\\' ']' (by decide) h
  · exact hbrace (environment_take_eq h)
  · exact hbrace (command_take_eq h)

end Recognizer

theorem comment_of_construct? {context : LeftContext} {body rest name : Text}
    (h : construct? context (body ++ rest) = some (.comment, ⟨body.length, name⟩)) :
    (∀ b ∈ (body ++ rest).head?, b = '%') ∧ ∀ b ∈ rest.head?, b = '\n' := by
  obtain ⟨recognize, hentry, h⟩ := construct?_eq_some_iff.mp h
  obtain rfl : recognize = Recognizer.comment := by simpa [Recognizer.table] using hentry
  obtain ⟨-, -, hend, -⟩ := Recognizer.comment_spec h
  obtain ⟨-, behind, hbehind, -⟩ := Recognizer.comment_eq_some_iff.mp h
  rw [List.drop_left] at hend
  exact ⟨by simp [hbehind], hend⟩

theorem escaped_behind_construct? {context : LeftContext} {body rest : Text}
    {kind : RegionKind} {name : Text}
    (h : construct? context (body ++ rest) = some (kind, ⟨body.length, name⟩)) :
    (context.pushAll body).escaped = false ∨ ∀ b, rest.head? = some b → b = ('\n' : UInt8) := by
  by_cases hkind : kind = .comment
  · subst hkind
    exact .inr (comment_of_construct? h).2
  · obtain ⟨recognize, hentry, h⟩ := construct?_eq_some_iff.mp h
    obtain ⟨inner, last, hinner, hlast⟩ := Recognizer.take_eq_of_mem_table hentry hkind h
    rw [List.take_left] at hinner
    have hbackslash : last ≠ ('\\' : UInt8) := by
      rintro rfl
      revert hlast
      decide
    left
    rw [hinner, LeftContext.pushAll_append]
    simp [hbackslash]

end LatexIntegrity
