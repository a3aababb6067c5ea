import LatexIntegrity.Sanitize.Document
import LatexIntegrity.Proofs.Region.Survival
import LatexIntegrity.Proofs.Rewriting.Groups

/-!
# The header of a table

The arguments of a table environment end where no further argument can be read.
They are therefore the same when the cells behind them are rewritten.
-/

namespace LatexIntegrity

namespace Tabular

variable {braces : Nat} {text : Text}

theorem argumentsLength_zero (text : Text) : argumentsLength 0 text = 0 := by
  cases text with
  | nil => rw [argumentsLength]
  | cons b rest => rw [argumentsLength, if_pos rfl]

theorem argumentsLength_bracket (hbraces : braces ≠ 0)
    (h : text.head? = some ('[' : UInt8)) :
    argumentsLength braces text =
      match Group.optional? text with
      | some length => length + argumentsLength braces (text.drop length)
      | none => 0 := by
  obtain ⟨rest, rfl⟩ := List.head?_eq_some_iff.mp h
  rw [argumentsLength, if_neg hbraces, if_pos (by decide)]
  cases hgroup : Group.optional? (('[' : UInt8) :: rest) with
  | none => rfl
  | some length => simp only [List.drop_cons (Group.flat?_pos hgroup)]

theorem argumentsLength_brace (hbraces : braces ≠ 0)
    (h : text.head? = some ('{' : UInt8)) :
    argumentsLength braces text =
      match Group.braced? 2 text with
      | some length => length + argumentsLength (braces - 1) (text.drop length)
      | none => 0 := by
  obtain ⟨rest, rfl⟩ := List.head?_eq_some_iff.mp h
  rw [argumentsLength, if_neg hbraces, if_neg (by decide), if_pos (by decide)]
  cases hgroup : Group.braced? 2 (('{' : UInt8) :: rest) with
  | none => rfl
  | some length => simp only [List.drop_cons (Group.braced?_pos hgroup)]

theorem argumentsLength_other (hbrace : text.head? ≠ some ('{' : UInt8))
    (hbracket : text.head? ≠ some ('[' : UInt8)) : argumentsLength braces text = 0 := by
  cases text with
  | nil => rw [argumentsLength]
  | cons b rest =>
      rw [argumentsLength]
      split
      · rfl
      · rw [if_neg (by simpa using hbracket), if_neg (by simpa using hbrace)]

theorem argumentsLength_eq_zero_iff :
    argumentsLength braces text = 0 ↔
      braces = 0 ∨ (text.head? = some ('[' : UInt8) → Group.optional? text = none) ∧
        (text.head? = some ('{' : UInt8) → Group.braced? 2 text = none) := by
  by_cases hbraces : braces = 0
  · simp [hbraces, argumentsLength_zero]
  · simp only [hbraces, false_or]
    by_cases hbracket : text.head? = some ('[' : UInt8)
    · have hbrace : text.head? ≠ some ('{' : UInt8) := by
        rw [hbracket]
        decide
      rw [argumentsLength_bracket hbraces hbracket]
      cases hgroup : Group.optional? text with
      | none => simp [hbrace]
      | some length =>
          have hpos := Group.flat?_pos hgroup
          simp [hbracket]
          omega
    · by_cases hbrace : text.head? = some ('{' : UInt8)
      · rw [argumentsLength_brace hbraces hbrace]
        cases hgroup : Group.braced? 2 text with
        | none => simp [hbracket]
        | some length =>
            have hpos := Group.braced?_pos hgroup
            simp [hbrace]
            omega
      · simp [argumentsLength_other hbrace hbracket, hbrace, hbracket]

/-- The arguments end where none can be read, and this is all that they ask of the rest. -/
structure ReadsArguments (braces : Nat) (text : Text) (length : Nat) : Prop where
  fits : length ≤ text.length
  context : (LeftContext.mk false false).pushAll (text.take length) = ⟨false, false⟩
  again : ∃ left, argumentsLength left (text.drop length) = 0 ∧
    ∀ other, argumentsLength left other = 0 →
      argumentsLength braces (text.take length ++ other) = length

theorem ReadsArguments.cons {left : Nat} {group length : Nat}
    (hfit : group ≤ text.length) {closer : UInt8}
    (hcloser : closer = '}' ∨ closer = ']')
    (hend : ∃ inner, text.take group = inner ++ [closer])
    (hread : ∀ other, argumentsLength braces (text.take group ++ other) =
      group + argumentsLength left other)
    (h : ReadsArguments left (text.drop group) length) :
    ReadsArguments braces text (group + length) := by
  obtain ⟨rest, hrest, hagain⟩ := h.again
  obtain ⟨inner, hinner⟩ := hend
  have hfit' := h.fits
  rw [List.length_drop] at hfit'
  refine ⟨by omega, ?_, rest, ?_, fun other hother => ?_⟩
  · rw [List.take_add, hinner, LeftContext.pushAll_append, LeftContext.pushAll_append]
    have hcontext : ∀ context : LeftContext, context.pushAll [closer] = ⟨false, false⟩ := by
      rintro ⟨escaped, dollar⟩
      rcases hcloser with rfl | rfl <;> rfl
    rw [hcontext]
    exact h.context
  · rwa [List.drop_drop] at hrest
  · rw [take_add_append, hread, hagain other hother]

theorem readsArguments (braces : Nat) (text : Text) :
    ReadsArguments braces text (argumentsLength braces text) := by
  -- Groups are taken as a whole, so the induction is on the length of the text.
  induction hn : text.length using Nat.strongRecOn generalizing text braces with
  | ind n ih =>
      subst hn
      by_cases hzero : argumentsLength braces text = 0
      · rw [hzero]
        exact ⟨Nat.zero_le _, rfl, braces, hzero, fun other hother => hother⟩
      · have hbraces : braces ≠ 0 := fun hbraces =>
          hzero (argumentsLength_eq_zero_iff.mpr (.inl hbraces))
        by_cases hbracket : text.head? = some ('[' : UInt8)
        · rw [argumentsLength_bracket hbraces hbracket] at hzero ⊢
          cases hgroup : Group.optional? text with
          | none => simp [hgroup] at hzero
          | some group =>
              have hpos := Group.flat?_pos hgroup
              have hlocal := Group.flat?_isLocal '[' ']'
              have hfit := hlocal.fits hgroup
              refine .cons hfit (.inr rfl) (Group.flat?_take_eq hgroup) ?_
                (ih _ (by rw [List.length_drop]; omega) _ _ rfl)
              intro other
              rw [argumentsLength_bracket hbraces (by
                rwa [head?_take_append hpos hfit]), Group.optional?,
                hlocal.again hgroup]
              simp only [List.drop_left' (List.length_take_of_le hfit)]
        · by_cases hbrace : text.head? = some ('{' : UInt8)
          · rw [argumentsLength_brace hbraces hbrace] at hzero ⊢
            cases hgroup : Group.braced? 2 text with
            | none => simp [hgroup] at hzero
            | some group =>
                have hpos := Group.braced?_pos hgroup
                have hlocal := Group.braced?_isLocal 2
                have hfit := hlocal.fits hgroup
                refine .cons hfit (.inl rfl) (Group.braced?_take_eq hgroup) ?_
                  (ih _ (by rw [List.length_drop]; omega) _ _ rfl)
                intro other
                rw [argumentsLength_brace hbraces (by
                  rwa [head?_take_append hpos hfit]),
                  hlocal.again hgroup]
                simp only [List.drop_left' (List.length_take_of_le hfit)]
          · exact absurd (argumentsLength_other hbrace hbracket) hzero

end Tabular

theorem Rewrites.argumentsLength_eq_zero {source target : Text}
    (h : Rewrites ⟨false, false⟩ source target) {braces : Nat}
    (hzero : Tabular.argumentsLength braces source = 0) :
    Tabular.argumentsLength braces target = 0 := by
  rw [Tabular.argumentsLength_eq_zero_iff] at hzero ⊢
  refine hzero.imp_right fun ⟨hbracket, hbrace⟩ => ⟨fun hhead => ?_, fun hhead => ?_⟩
  · cases hgroup : Group.optional? target with
    | none => rfl
    | some length =>
        obtain ⟨length', hlength', -⟩ := h.optional? rfl hgroup
        rw [hbracket (h.head?_target rfl (by decide) hhead)] at hlength'
        cases hlength'
  · cases hgroup : Group.braced? 2 target with
    | none => rfl
    | some length =>
        have hsome := h.braced?_isSome rfl rfl (by rw [hgroup]; rfl)
        rw [hbrace (h.head?_target rfl (by decide) hhead)] at hsome
        cases hsome

end LatexIntegrity
