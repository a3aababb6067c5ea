import LatexIntegrity.Proofs.Region.Locality

/-!
# Precedence of recognizers

The construct at a place is the one of the first recognizer of the table that
succeeds.  The first bytes of a text say which recognizer that can be, so that at
most one succeeds and their order does not matter.
-/

namespace LatexIntegrity

namespace Recognizer

theorem bounds_of_mem_table {entry : RegionKind × Recognizer} (hentry : entry ∈ table)
    {context : LeftContext} {text : Text} {construct : Construct}
    (h : entry.2 context text = some construct) :
    0 < construct.length ∧ construct.length ≤ text.length := by
  rcases isSelfContained_of_mem_table hentry with rfl | rfl | rfl | hself
  · exact ⟨(comment_spec h).1, (comment_spec h).2.1⟩
  · exact ⟨newCommand_pos h, (newCommand_spec h).1⟩
  · exact ⟨(inlineMath_spec h).1, (inlineMath_spec h).2.1⟩
  · exact ⟨hself.pos h, hself.fits h⟩

theorem kind_ne_plain_of_mem_table {entry : RegionKind × Recognizer}
    (hentry : entry ∈ table) : entry.1 ≠ .plain := by
  simp only [table, List.mem_cons, List.not_mem_nil, or_false] at hentry
  rcases hentry with rfl | rfl | rfl | rfl | rfl | rfl | rfl | rfl | rfl <;> simp

variable {context : LeftContext} {text : Text}

theorem firstConstruct?_eq_none_iff {entries : List (RegionKind × Recognizer)} :
    firstConstruct? context text entries = none ↔
      ∀ entry ∈ entries, entry.2 context text = none := by
  induction entries with
  | nil => simp [firstConstruct?]
  | cons entry entries ih =>
      rw [firstConstruct?, List.forall_mem_cons, ← ih]
      cases hentry : entry.2 context text with
      | none => simp
      | some construct => simp

theorem firstConstruct?_eq_some {entries : List (RegionKind × Recognizer)}
    {kind : RegionKind} {construct : Construct}
    (h : firstConstruct? context text entries = some (kind, construct)) :
    ∃ before recognize after, entries = before ++ (kind, recognize) :: after ∧
      (∀ entry ∈ before, entry.2 context text = none) ∧
        recognize context text = some construct := by
  induction entries with
  | nil => cases h
  | cons entry entries ih =>
      rw [firstConstruct?] at h
      cases hentry : entry.2 context text with
      | some found =>
          simp only [hentry, Option.some.injEq, Prod.mk.injEq] at h
          obtain ⟨rfl, rfl⟩ := h
          exact ⟨[], entry.2, entries, rfl, by simp, hentry⟩
      | none =>
          simp only [hentry] at h
          obtain ⟨before, recognize, after, rfl, hbefore, hfound⟩ := ih h
          exact ⟨entry :: before, recognize, after, rfl,
            List.forall_mem_cons.mpr ⟨hentry, hbefore⟩, hfound⟩

end Recognizer

variable {context : LeftContext} {text : Text}

theorem construct?_spec {kind : RegionKind} {construct : Construct}
    (h : construct? context text = some (kind, construct)) :
    kind ≠ .plain ∧ 0 < construct.length ∧ construct.length ≤ text.length := by
  obtain ⟨before, recognize, after, htable, -, hfound⟩ :=
    Recognizer.firstConstruct?_eq_some h
  have hentry : (kind, recognize) ∈ Recognizer.table := by rw [htable]; simp
  exact ⟨Recognizer.kind_ne_plain_of_mem_table hentry,
    Recognizer.bounds_of_mem_table hentry hfound⟩

/-! ## At most one recognizer succeeds -/

namespace Recognizer

/-- The number in the table of the only recognizer that can succeed on a text. -/
def candidate : Text → Nat
  | [] => table.length
  | b :: rest =>
      if b == '%' then 0
      else if b == '$' then if rest.head? = some ('$' : UInt8) then 3 else 4
      else if b == '\\' then
        if rest.head? = some ('(' : UInt8) then 5
        else if rest.head? = some ('[' : UInt8) then 6
        else
          let word := controlWord (b :: rest)
          if definitionCommands.contains word then 1
          else if word == "def" then 2
          else if word == "begin" then 7
          else 8
      else table.length

theorem candidate_of_controlWord {text : Text} (hword : controlWord text ≠ []) :
    candidate text =
      if definitionCommands.contains (controlWord text) then 1
      else if controlWord text == "def" then 2
      else if controlWord text == "begin" then 7
      else 8 := by
  have hhead := head?_eq_of_controlWord_ne_nil hword
  have htext := eq_cons_controlWord_append hhead
  obtain ⟨letter, letters, hletters⟩ := List.exists_cons_of_ne_nil hword
  have hletter : Ascii.isLetter letter = true :=
    isLetter_of_mem_controlWord (by rw [hletters]; exact List.mem_cons_self)
  obtain ⟨rest, rfl⟩ := List.head?_eq_some_iff.mp hhead
  have hrest : rest.head? = some letter := by
    rw [hletters, List.cons_append, List.cons.injEq] at htext
    rw [htext.2]
    rfl
  have hround : letter ≠ ('(' : UInt8) := by
    rintro rfl
    revert hletter
    decide
  have hsquare : letter ≠ ('[' : UInt8) := by
    rintro rfl
    revert hletter
    decide
  have hpercent : (('\\' : UInt8) == ('%' : UInt8)) = false := by decide
  have hdollar : (('\\' : UInt8) == ('$' : UInt8)) = false := by decide
  rw [candidate, hpercent, hdollar, hrest]
  simp [hround, hsquare]

theorem commandArguments?_eq_none {word : Text}
    (hword : word ∈ ("def" :: "begin" :: definitionCommands : List Text)) (text : Text) :
    commandArguments? word text = none := by
  have hall : ∀ word ∈ ("def" :: "begin" :: definitionCommands : List Text),
      singleArgumentCommands.contains word = false ∧ isCitationCommand word = false ∧
        (word == "href") = false := by decide
  obtain ⟨hsingle, hcitation, hlink⟩ := hall word hword
  rw [commandArguments?, hsingle, hcitation, hlink]
  rfl

section

variable {context : LeftContext} {text : Text} {construct : Construct}

theorem candidate_of_comment (h : comment context text = some construct) :
    candidate text = 0 := by
  obtain ⟨-, rest, rfl, -⟩ := comment_eq_some_iff.mp h
  rfl

theorem candidate_of_newCommand (h : newCommand context text = some construct) :
    candidate text = 1 := by
  obtain ⟨-, hword, -⟩ := newCommand_eq_some_iff.mp h
  rw [candidate_of_controlWord (controlWord_ne_nil_of_mem_definitionCommands hword),
    if_pos hword]

theorem candidate_of_definition (h : definition context text = some construct) :
    candidate text = 2 := by
  obtain ⟨-, hword, -⟩ := definition_eq_some_iff.mp h
  have hne : controlWord text ≠ [] := by
    rw [hword]
    decide
  rw [candidate_of_controlWord hne, hword]
  decide

theorem candidate_of_displayMath (h : displayMath context text = some construct) :
    candidate text = 3 := by
  rw [displayMath_eq_fenced] at h
  obtain ⟨-, ⟨rest, rfl⟩, -⟩ := fenced_eq_some_iff.mp h
  rfl

theorem candidate_of_inlineMath (h : inlineMath context text = some construct) :
    candidate text = 4 := by
  obtain ⟨b, rest, rfl, hlone, -⟩ := inlineMath_eq_some_iff.mp h
  simp only [isLoneDollar, Bool.and_eq_true, beq_iff_eq, bne_iff_ne, ne_eq] at hlone
  obtain ⟨⟨⟨rfl, -⟩, hnext⟩, -⟩ := hlone
  have hpercent : (('$' : UInt8) == ('%' : UInt8)) = false := by decide
  rw [candidate, hpercent, if_neg Bool.false_ne_true, beq_self_eq_true, if_pos rfl,
    if_neg hnext]

theorem candidate_of_parenthesisMath (h : parenthesisMath context text = some construct) :
    candidate text = 5 := by
  obtain ⟨-, ⟨rest, rfl⟩, -⟩ := fenced_eq_some_iff.mp h
  rfl

theorem candidate_of_bracketMath (h : bracketMath context text = some construct) :
    candidate text = 6 := by
  obtain ⟨-, ⟨rest, rfl⟩, -⟩ := fenced_eq_some_iff.mp h
  rfl

theorem candidate_of_environment (h : environment context text = some construct) :
    candidate text = 7 := by
  obtain ⟨-, hfenced⟩ := environment_eq_some_iff.mp h
  obtain ⟨-, ⟨rest, rfl⟩, -⟩ := fenced_eq_some_iff.mp hfenced
  obtain ⟨hword, -⟩ := DelimiterToken.controlWord_source_append
    ⟨.opening, construct.name⟩ rest
  have hne : DelimiterSide.opening.word ≠ [] := by decide
  rw [candidate_of_controlWord (by rw [hword]; exact hne), hword]
  rfl

theorem candidate_of_command (h : command context text = some construct) :
    candidate text = 8 := by
  obtain ⟨-, hword, arguments, harguments, -⟩ := command_eq_some_iff.mp h
  have hother : controlWord text ∉ ("def" :: "begin" :: definitionCommands : List Text) := by
    intro hmem
    rw [commandArguments?_eq_none hmem] at harguments
    cases harguments
  simp only [List.mem_cons, not_or] at hother
  obtain ⟨hdef, hbegin, hdefinition⟩ := hother
  rw [candidate_of_controlWord hword]
  simp [hdefinition, hdef, hbegin]

theorem candidate_eq_of_eq_some {index : Nat} {entry : RegionKind × Recognizer}
    (hentry : table[index]? = some entry) (h : entry.2 context text = some construct) :
    candidate text = index := by
  match index with
  | 0 => cases hentry; exact candidate_of_comment h
  | 1 => cases hentry; exact candidate_of_newCommand h
  | 2 => cases hentry; exact candidate_of_definition h
  | 3 => cases hentry; exact candidate_of_displayMath h
  | 4 => cases hentry; exact candidate_of_inlineMath h
  | 5 => cases hentry; exact candidate_of_parenthesisMath h
  | 6 => cases hentry; exact candidate_of_bracketMath h
  | 7 => cases hentry; exact candidate_of_environment h
  | 8 => cases hentry; exact candidate_of_command h
  | _ + 9 => simp [table] at hentry

end

end Recognizer

variable {context : LeftContext} {text : Text} {kind : RegionKind} {construct : Construct}

theorem construct?_eq_some_iff :
    construct? context text = some (kind, construct) ↔
      ∃ recognize, (kind, recognize) ∈ Recognizer.table ∧
        recognize context text = some construct := by
  constructor
  · intro h
    obtain ⟨before, recognize, after, htable, -, hfound⟩ :=
      Recognizer.firstConstruct?_eq_some h
    exact ⟨recognize, by rw [htable]; simp, hfound⟩
  · rintro ⟨recognize, hentry, hfound⟩
    cases hfirst : construct? context text with
    | none =>
        have hnone := Recognizer.firstConstruct?_eq_none_iff.mp hfirst _ hentry
        cases hfound.symm.trans hnone
    | some first =>
        obtain ⟨other, found⟩ := first
        obtain ⟨before, recognize', after, htable, -, hfound'⟩ :=
          Recognizer.firstConstruct?_eq_some hfirst
        obtain ⟨index, hindex⟩ := List.getElem?_of_mem hentry
        have hindex' : Recognizer.table[before.length]? = some (other, recognize') := by
          rw [htable]
          simp
        -- Both entries have the number that the first bytes of the text call for.
        have hsame := (Recognizer.candidate_eq_of_eq_some hindex' hfound').symm.trans
          (Recognizer.candidate_eq_of_eq_some hindex hfound)
        rw [hsame, hindex] at hindex'
        cases hindex'
        cases hfound.symm.trans hfound'
        rfl

theorem Recognizer.escaped_of_mem_table {entry : RegionKind × Recognizer}
    (hentry : entry ∈ Recognizer.table) (h : entry.2 context text = some construct) :
    context.escaped = false := by
  simp only [Recognizer.table, List.mem_cons, List.not_mem_nil, or_false] at hentry
  rcases hentry with rfl | rfl | rfl | rfl | rfl | rfl | rfl | rfl | rfl
  · exact (Recognizer.comment_eq_some_iff.mp h).1
  · exact (Recognizer.newCommand_eq_some_iff.mp h).1
  · exact (Recognizer.definition_eq_some_iff.mp h).1
  · rw [Recognizer.displayMath_eq_fenced] at h
    exact (Recognizer.fenced_eq_some_iff.mp h).1
  · obtain ⟨b, rest, rfl, hlone, -⟩ := Recognizer.inlineMath_eq_some_iff.mp h
    simp only [Recognizer.isLoneDollar, Bool.and_eq_true, Bool.not_eq_true'] at hlone
    exact hlone.2
  · exact (Recognizer.fenced_eq_some_iff.mp h).1
  · exact (Recognizer.fenced_eq_some_iff.mp h).1
  · exact (Recognizer.fenced_eq_some_iff.mp (Recognizer.environment_eq_some_iff.mp h).2).1
  · exact (Recognizer.command_eq_some_iff.mp h).1

theorem construct?_eq_none_of_escaped (hescaped : context.escaped = true) (text : Text) :
    construct? context text = none := by
  refine Recognizer.firstConstruct?_eq_none_iff.mpr ?_
  intro entry hentry
  cases hfound : entry.2 context text with
  | none => rfl
  | some construct =>
      rw [Recognizer.escaped_of_mem_table hentry hfound] at hescaped
      cases hescaped

theorem escaped_of_construct? {found : RegionKind × Construct}
    (h : construct? context text = some found) : context.escaped = false := by
  cases hescaped : context.escaped with
  | false => rfl
  | true =>
      rw [construct?_eq_none_of_escaped hescaped] at h
      cases h

theorem construct?_eq_none_of_candidate
    (h : ∀ entry, Recognizer.table[Recognizer.candidate text]? = some entry →
      entry.2 context text = none) : construct? context text = none := by
  refine Recognizer.firstConstruct?_eq_none_iff.mpr ?_
  intro entry hentry
  obtain ⟨index, hindex⟩ := List.getElem?_of_mem hentry
  cases hfound : entry.2 context text with
  | none => rfl
  | some construct =>
      rw [← Recognizer.candidate_eq_of_eq_some hindex hfound] at hindex
      rw [h entry hindex] at hfound
      cases hfound

theorem construct?_eq_none_of_head {b : UInt8} (hpercent : b ≠ '%') (hdollar : b ≠ '$')
    (hbackslash : b ≠ '\\') (rest : Text) : construct? context (b :: rest) = none := by
  refine construct?_eq_none_of_candidate ?_
  intro entry hentry
  simp [Recognizer.candidate, hpercent, hdollar, hbackslash] at hentry

theorem kind_of_construct?_dollar {rest : Text}
    (h : construct? context (('$' : UInt8) :: rest) = some (kind, construct)) :
    kind = .displayMath ∨ kind = .inlineMath := by
  obtain ⟨recognize, hentry, hfound⟩ := construct?_eq_some_iff.mp h
  obtain ⟨index, hindex⟩ := List.getElem?_of_mem hentry
  rw [← Recognizer.candidate_eq_of_eq_some hindex hfound, Recognizer.candidate] at hindex
  by_cases hpair : rest.head? = some ('$' : UInt8)
  · rw [if_neg (by decide), if_pos (by decide), if_pos hpair] at hindex
    cases hindex
    exact .inl rfl
  · rw [if_neg (by decide), if_pos (by decide), if_neg hpair] at hindex
    cases hindex
    exact .inr rfl

theorem construct?_eq_none_iff :
    construct? context text = none ↔
      ∀ entry ∈ Recognizer.table, entry.2 context text = none :=
  Recognizer.firstConstruct?_eq_none_iff

end LatexIntegrity
