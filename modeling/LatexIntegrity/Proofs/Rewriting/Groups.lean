import LatexIntegrity.Proofs.Rewriting.Insertions
import LatexIntegrity.Proofs.Region.Locality

/-!
# Argument groups of a rewritten text

A group that is closed in a rewritten text was closed before the rewriting.  Where
a bracket group ends in the rewritten text, the same bracket ended it before.
-/

namespace LatexIntegrity

namespace Group

def closes (limit : Nat) : Bool → Nat → Text → Bool
  | _, _, [] => false
  | true, depth, _ :: rest => closes limit false depth rest
  | false, depth, b :: rest =>
      if b == '\\' then closes limit true depth rest
      else if b == '{' then
        if limit < depth + 1 then false else closes limit false (depth + 1) rest
      else if b == '}' then
        match depth with
        | 0 => true
        | outer + 1 => closes limit false outer rest
      else closes limit false depth rest

theorem closes_cons (limit depth : Nat) (b : UInt8) (rest : Text) :
    closes limit false depth (b :: rest) =
      if b == '\\' then closes limit true depth rest
      else match braceStep limit depth b with
        | .exceeds => false
        | .closes => true
        | .goesOn depth => closes limit false depth rest := by
  rw [closes.eq_def, braceStep.eq_def]
  dsimp only
  split
  · rfl
  · split
    · split <;> rfl
    · split
      · cases depth <;> rfl
      · rfl

theorem isSome_closing? (limit depth : Nat) (text : Text) :
    (closing? limit depth text).isSome = closes limit false depth text := by
  fun_induction closing? limit depth text with
  | case1 => rfl
  | case2 depth b hb => simp [closes, hb]
  | case3 depth b hb second behind ih => simp [closes, hb, ih]
  | case4 depth b rest hb hopen hlimit => simp [closes, hb, hopen, hlimit]
  | case5 depth b rest hb hopen hlimit ih => simp [closes, hb, hopen, hlimit, ih]
  | case6 b rest hb hopen hclose => simp [closes, hb, hopen, hclose]
  | case7 b rest hb hopen hclose outer ih => simp [closes, hb, hopen, hclose, ih]
  | case8 depth b rest hb hopen hclose ih => simp [closes, hb, hopen, hclose, ih]

theorem closes_append {limit outer depth behind : Nat} {escaped : Bool} {chunk rest : Text}
    (hdepth : depthBehind escaped depth chunk = some behind)
    (h : closes limit escaped (outer + depth) (chunk ++ rest) = true) :
    closes limit false (outer + behind) rest = true := by
  fun_induction depthBehind escaped depth chunk with
  | case1 depth =>
      cases hdepth
      exact h
  | case2 => cases hdepth
  | case3 depth b bytes ih => exact ih hdepth h
  | case4 depth b bytes hb ih =>
      rw [List.cons_append, closes_cons, if_pos hb] at h
      exact ih hdepth h
  | case5 depth b bytes hb hopen ih =>
      obtain rfl := beq_iff_eq.mp hopen
      rw [List.cons_append, closes_cons, if_neg hb] at h
      by_cases hroom : outer + depth < limit
      · rw [braceStep_open hroom] at h
        exact ih hdepth h
      · rw [braceStep_open_of_le (Nat.le_of_not_lt hroom)] at h
        cases h
  | case6 => cases hdepth
  | case7 b bytes hb hopen hclose inner ih =>
      obtain rfl := beq_iff_eq.mp hclose
      rw [List.cons_append, closes_cons, if_neg hb] at h
      exact ih hdepth h
  | case8 depth b bytes hb hopen hclose ih =>
      rw [List.cons_append, closes_cons, if_neg hb,
        braceStep_byte (by simpa using hopen) (by simpa using hclose)] at h
      exact ih hdepth h

theorem closes_append_of_isOrdinary {limit depth : Nat} {key : Text}
    (hkey : ∀ b ∈ key, isOrdinary b = true) (rest : Text) :
    closes limit false depth (key ++ rest) = closes limit false depth rest := by
  induction key with
  | nil => rfl
  | cons b bytes ih =>
      have hb := hkey b List.mem_cons_self
      have hne : ∀ other, isOrdinary other = false → b ≠ other := by
        rintro _ hother rfl
        rw [hb] at hother
        cases hother
      rw [List.cons_append, closes_cons, if_neg (by simpa using hne '\\' (by decide)),
        braceStep_byte (hne _ (by decide)) (hne _ (by decide))]
      exact ih fun b hb => hkey b (List.mem_cons_of_mem _ hb)

/-! ## Arguments in braces -/

theorem argument?_cons (rest : Text) :
    argument? (('{' : UInt8) :: rest) =
      (rest.findIdx? (· == ('}' : UInt8))).map (· + 2) := rfl

theorem braced?_cons (limit : Nat) (rest : Text) :
    braced? limit (('{' : UInt8) :: rest) = (closing? limit 0 rest).map (· + 1) := rfl

theorem argument?_eq_none_iff {text : Text} (hhead : text.head? = some ('{' : UInt8)) :
    argument? text = none ↔ ('}' : UInt8) ∉ text := by
  obtain ⟨rest, rfl⟩ := List.head?_eq_some_iff.mp hhead
  rw [argument?_cons, Option.map_eq_none_iff, List.findIdx?_eq_none_iff, List.mem_cons, not_or]
  exact ⟨fun h => ⟨by decide, fun hmem => by simpa using h _ hmem⟩,
    fun h b hb => beq_eq_false_iff_ne.mpr (ne_of_mem_of_not_mem hb h.2)⟩

end Group

theorem RewritesWhere.citationArguments? {allowed : Text → Text → Text → Text → Prop}
    {context : LeftContext} {source target : Text} (count : Nat)
    (h : RewritesWhere allowed context source target)
    (hbracket : ∀ {key chunk source target}, allowed key chunk source target →
      (']' : UInt8) ∉ chunk) (hdollar : context.dollar = false)
    (hnone : Recognizer.citationArguments? count source = none) {length : Nat}
    (hlength : Recognizer.citationArguments? count target = some length) :
    ∃ options options' argument before, length = options + argument ∧ before.dollar = false ∧
      Recognizer.optionalArguments? count source = some options' ∧
        RewritesWhere allowed before (source.drop options') (target.drop options) ∧
          Group.argument? (source.drop options') = none ∧
            Group.argument? (target.drop options) = some argument := by
  obtain ⟨options, hoptions, hlength⟩ := Option.bind_eq_some_iff.mp hlength
  obtain ⟨argument, hargument, hlength⟩ := Option.bind_eq_some_iff.mp hlength
  cases hlength
  obtain ⟨options', before, hoptions', hbefore, hrest⟩ :=
    h.optionalArguments? count hbracket hdollar hoptions
  refine ⟨options, options', argument, before, rfl, hbefore, hoptions', hrest, ?_, hargument⟩
  cases hargument' : Group.argument? (source.drop options') with
  | none => rfl
  | some argument' => simp [Recognizer.citationArguments?, hoptions', hargument'] at hnone

namespace Rewrites

variable {context : LeftContext} {source target : Text}

theorem closes (h : Rewrites context source target) {limit depth : Nat}
    (hcloses : Group.closes limit context.escaped depth target = true) :
    Group.closes limit context.escaped depth source = true := by
  induction h generalizing depth with
  | nil => exact hcloses
  | @copy b context source target _ ih =>
      rw [LeftContext.push_escaped] at ih
      cases hescaped : context.escaped with
      | true =>
          rw [hescaped, Bool.not_true, Bool.and_false] at ih
          rw [hescaped, Group.closes] at hcloses
          exact ih hcloses
      | false =>
          rw [hescaped, Bool.not_false, Bool.and_true] at ih
          rw [hescaped, Group.closes_cons] at hcloses
          rw [Group.closes_cons]
          by_cases hb : (b == ('\\' : UInt8)) = true
          · rw [if_pos hb] at hcloses ⊢
            rw [hb] at ih
            exact ih hcloses
          · rw [if_neg hb] at hcloses ⊢
            rw [Bool.not_eq_true] at hb
            rw [hb] at ih
            cases hstep : Group.braceStep limit depth b with
            | exceeds =>
                rw [hstep] at hcloses
                cases hcloses
            | closes => rfl
            | goesOn inner =>
                rw [hstep] at hcloses
                exact ih hcloses
  -- Inert texts are balanced, and the keys that they replace hold no braces.
  | @replace context key chunk source target hescaped _ hordinary hinert _ ih =>
      rw [hescaped] at hcloses ⊢
      rw [hinert.escaped_pushAll hescaped] at ih
      rw [Group.closes_append_of_isOrdinary hordinary]
      rw [← Nat.add_zero depth] at hcloses
      exact ih (Group.closes_append hinert.balanced hcloses)
  | guard hcontext _ ih =>
      subst hcontext
      have hbalanced : Group.depthBehind false 0 dollarGuard = some 0 := by decide
      rw [← Nat.add_zero depth] at hcloses
      exact ih (Group.closes_append hbalanced hcloses)

theorem braced?_isSome_of_copied (hcontext : context.escaped = false)
    (h : Rewrites context source target) {limit : Nat}
    (hsome : (Group.braced? limit (('{' : UInt8) :: target)).isSome = true) :
    (Group.braced? limit (('{' : UInt8) :: source)).isSome = true := by
  rw [Group.braced?_cons, Option.isSome_map, Group.isSome_closing?, ← hcontext] at hsome ⊢
  exact h.closes hsome

theorem braced?_isSome (h : Rewrites context source target)
    (hescaped : context.escaped = false) (hdollar : context.dollar = false) {limit : Nat}
    (hsome : (Group.braced? limit target).isSome = true) :
    (Group.braced? limit source).isSome = true := by
  obtain ⟨length, hlength⟩ := Option.isSome_iff_exists.mp hsome
  obtain ⟨rest, -, rfl, -, -⟩ := Group.braced?_eq_some_iff_closing?.mp hlength
  obtain ⟨rest', rfl, hrest⟩ := h.cons_target hdollar (by decide)
  have hcontext : (context.push '{').escaped = false := by
    rw [LeftContext.push_escaped, hescaped]
    rfl
  exact hrest.braced?_isSome_of_copied hcontext hsome

theorem optional? (h : Rewrites context source target) (hdollar : context.dollar = false)
    {length : Nat} (hlength : Group.optional? target = some length) :
    ∃ length', Group.optional? source = some length' ∧
      Rewrites ⟨false, false⟩ (source.drop length') (target.drop length) := by
  obtain ⟨length', hlength', hbehind⟩ := h.withoutBrackets.optional? id hdollar hlength
  exact ⟨length', hlength', hbehind.rewrites⟩

/-! ## Arguments -/

theorem isSome_definitionArguments? (h : Rewrites context source target)
    (hescaped : context.escaped = false) (hdollar : context.dollar = false) {length : Nat}
    (hread : Recognizer.DefinitionArguments target length) :
    (Recognizer.definitionArguments? source).isSome = true := by
  induction hread generalizing context source with
  | last hgroup _ | brace hgroup _ _ =>
      exact Recognizer.isSome_definitionArguments?_of_braced
        (h.braced?_isSome hescaped hdollar (Option.isSome_of_eq_some hgroup))
  | bracket hgroup _ ih =>
      obtain ⟨group', hgroup', hbehind⟩ := h.optional? hdollar hgroup
      rw [Recognizer.isSome_definitionArguments?_of_optional hgroup']
      exact ih hbehind rfl rfl

theorem definitionArguments?_eq_none (h : Rewrites context source target)
    (hescaped : context.escaped = false) (hdollar : context.dollar = false)
    (hnone : Recognizer.definitionArguments? source = none) :
    Recognizer.definitionArguments? target = none := by
  cases hfound : Recognizer.definitionArguments? target with
  | none => rfl
  | some length =>
      have hsome := h.isSome_definitionArguments? hescaped hdollar
        (Recognizer.definitionArguments?_eq_some_iff.mp hfound)
      rw [hnone] at hsome
      cases hsome

end Rewrites

end LatexIntegrity
