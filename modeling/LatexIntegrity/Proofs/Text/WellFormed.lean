import LatexIntegrity.Proofs.Text.Decomposition

/-!
# Cutting and joining well-formed texts

A well-formed text may be cut in front of each byte that is not a continuation byte, and
behind each ASCII byte.  Well-formed texts may be joined, and taken away from the front.
-/

namespace LatexIntegrity.Utf8

variable {text before after first second source target inserted : Text} {b : UInt8}

instance : DecidablePred WellFormed := fun _ =>
  decidable_of_iff _ wellFormed_iff_replacements.symm

/-! ## Joining -/

theorem wellFormed_nil : WellFormed [] := ⟨[], rfl⟩

theorem WellFormed.append (hfirst : WellFormed first) (hsecond : WellFormed second) :
    WellFormed (first ++ second) := by
  obtain ⟨chars, rfl⟩ := hfirst
  obtain ⟨others, rfl⟩ := hsecond
  exact ⟨chars ++ others, by rw [List.flatMap_append]⟩

theorem WellFormed.flatten {parts : List Text} (h : ∀ part ∈ parts, WellFormed part) :
    WellFormed parts.flatten := by
  induction parts with
  | nil => exact wellFormed_nil
  | cons part others ih =>
      obtain ⟨hpart, hothers⟩ := List.forall_mem_cons.mp h
      exact hpart.append (ih hothers)

theorem wellFormed_of_ascii (h : ∀ b ∈ text, b.toNat < 0x80) : WellFormed text := by
  induction text with
  | nil => exact wellFormed_nil
  | cons b rest ih =>
      obtain ⟨hb, hrest⟩ := List.forall_mem_cons.mp h
      obtain ⟨c, hc⟩ := exists_form_one hb
      have hform : WellFormed [b] := ⟨[c], by rw [List.flatMap_singleton, hc]⟩
      exact hform.append (ih hrest)

theorem wellFormed_of_all (h : (text.all fun b => b.toNat < 0x80) = true) : WellFormed text :=
  wellFormed_of_ascii (by simpa using h)

theorem isContinuation_of_ascii (h : b.toNat < 0x80) : isContinuation b = false := by
  rw [← Bool.not_eq_true, isContinuation_iff]
  omega

/-! ## Cutting -/

theorem WellFormed.of_append (h : WellFormed (first ++ second)) (hfirst : WellFormed first) :
    WellFormed second := by
  obtain ⟨chars, rfl⟩ := hfirst
  induction chars with
  | nil => exact h
  | cons c chars ih =>
      refine ih ?_
      rw [List.flatMap_cons, List.append_assoc, wellFormed_iff_replacements, replacements,
        chunks_form, List.countP_cons_of_neg (by simp)] at h
      exact wellFormed_iff_replacements.mpr h

theorem WellFormed.cut (h : WellFormed (before ++ b :: after)) (hb : isContinuation b = false) :
    WellFormed before ∧ WellFormed (b :: after) := by
  have hbefore : WellFormed before := by
    obtain ⟨chars, hchars⟩ := h
    induction chars generalizing before with
    | nil => simp at hchars
    | cons c chars ih =>
        rw [List.flatMap_cons] at hchars
        rcases List.append_eq_append_iff.mp hchars with ⟨inside, hform, -⟩ | ⟨rest, rfl, hrest⟩
        · -- The byte would stand inside the first form.
          cases before with
          | nil => exact wellFormed_nil
          | cons lead tail =>
              cases inside with
              | nil =>
                  rw [List.append_nil] at hform
                  exact ⟨[c], by rw [List.flatMap_singleton, hform]⟩
              | cons other inside =>
                  have hcontinues := (isContinuation_of_form hform).2 other (by simp)
                  rw [hform, List.append_assoc, List.append_cancel_left_eq] at hchars
                  rw [← (List.cons.inj hchars).1, hb] at hcontinues
                  cases hcontinues
        · obtain ⟨others, hothers⟩ := ih hrest.symm
          exact ⟨c :: others, by rw [List.flatMap_cons, hothers]⟩
  exact ⟨hbefore, h.of_append hbefore⟩

theorem WellFormed.cut_behind (h : WellFormed (before ++ b :: after)) (hb : b.toNat < 0x80) :
    WellFormed (before ++ [b]) ∧ WellFormed after := by
  obtain ⟨hbefore, -⟩ := h.cut (isContinuation_of_ascii hb)
  have hfirst : WellFormed (before ++ [b]) :=
    hbefore.append (wellFormed_of_ascii (by simpa using hb))
  rw [List.append_cons] at h
  exact ⟨hfirst, h.of_append hfirst⟩

theorem WellFormed.cut_part (h : WellFormed (before ++ (source ++ after)))
    (hsource : WellFormed source) (hne : source ≠ []) :
    WellFormed before ∧ WellFormed after := by
  obtain ⟨chars, rfl⟩ := hsource
  cases chars with
  | nil => exact absurd rfl hne
  | cons c chars =>
      obtain ⟨lead, tail, hform⟩ := exists_form_eq_cons c
      have hlead := (isContinuation_of_form hform).1
      have hcut := h
      rw [List.flatMap_cons, hform, List.cons_append, List.cons_append] at hcut
      obtain ⟨hbefore, -⟩ := hcut.cut hlead
      exact ⟨hbefore, (h.of_append hbefore).of_append ⟨c :: chars, rfl⟩⟩

/-! ## Places -/

section Places

variable {offset : Nat}

theorem WellFormed.drop (h : WellFormed text) (hbefore : WellFormed (text.take offset)) :
    WellFormed (text.drop offset) := by
  rw [← List.take_append_drop offset text] at h
  exact h.of_append hbefore

theorem WellFormed.isContinuation_head (h : WellFormed (b :: after)) :
    isContinuation b = false := by
  obtain ⟨chars, hchars⟩ := h
  cases chars with
  | nil => cases hchars
  | cons c chars =>
      obtain ⟨lead, tail, hform⟩ := exists_form_eq_cons c
      rw [List.flatMap_cons, hform] at hchars
      rw [(List.cons.inj hchars).1]
      exact (isContinuation_of_form hform).1

theorem WellFormed.take_iff (h : WellFormed text) (hget : text[offset]? = some b) :
    WellFormed (text.take offset) ↔ isContinuation b = false := by
  have hdrop : text.drop offset = b :: text.drop (offset + 1) := by
    rw [List.drop_eq_getElem?_toList_append, hget]
    rfl
  constructor
  · intro hbefore
    have hbehind := h.drop hbefore
    rw [hdrop] at hbehind
    exact hbehind.isContinuation_head
  · intro hb
    rw [← List.take_append_drop offset text, hdrop] at h
    exact (h.cut hb).1

theorem WellFormed.left (h : WellFormed (before ++ after))
    (hafter : ∀ b ∈ after.head?, b.toNat < 0x80) : WellFormed before := by
  cases after with
  | nil => rwa [List.append_nil] at h
  | cons b rest => exact (h.cut (isContinuation_of_ascii (hafter b rfl))).1

theorem WellFormed.take (h : WellFormed text)
    (hhead : ∀ b ∈ (text.drop offset).head?, b.toNat < 0x80) :
    WellFormed (text.take offset) := by
  rw [← List.take_append_drop offset text] at h
  exact h.left hhead

theorem WellFormed.take_succ (h : WellFormed text) (hget : text[offset]? = some b)
    (hb : b.toNat < 0x80) : WellFormed (text.take (offset + 1)) := by
  rw [← List.take_append_drop offset text, List.drop_eq_getElem?_toList_append, hget] at h
  rw [List.take_add_one, hget]
  exact (h.cut_behind hb).1

theorem WellFormed.between (h : WellFormed (before ++ (source ++ after)))
    (hbefore : ∀ b ∈ before.getLast?, b.toNat < 0x80)
    (hafter : ∀ b ∈ after.head?, b.toNat < 0x80) : WellFormed source := by
  rw [← List.append_assoc] at h
  have hfront := h.left hafter
  rcases List.eq_nil_or_concat before with rfl | ⟨front, last, rfl⟩
  · exact hfront
  · rw [List.concat_eq_append, List.append_assoc] at hfront
    exact (hfront.cut_behind (hbefore last (by simp))).2

end Places

/-! ## Substitution -/

/-- The second text may stand in the place of the first one in every well-formed text. -/
def Substitutes (source target : Text) : Prop :=
  ∀ before after, WellFormed (before ++ (source ++ after)) →
    WellFormed (before ++ (target ++ after))

theorem Substitutes.refl (text : Text) : Substitutes text text := fun _ _ h => h

theorem Substitutes.wellFormed (h : Substitutes source target) (hsource : WellFormed source) :
    WellFormed target := by
  have htarget := h [] []
  simp only [List.nil_append, List.append_nil] at htarget
  exact htarget hsource

theorem Substitutes.append {source' target' : Text} (h : Substitutes source target)
    (h' : Substitutes source' target') : Substitutes (source ++ source') (target ++ target') := by
  intro before after hwhole
  rw [List.append_assoc] at hwhole ⊢
  have hfirst := h before _ hwhole
  rw [← List.append_assoc] at hfirst ⊢
  exact h' _ after hfirst

theorem Substitutes.of_wellFormed (hsource : WellFormed source) (hne : source ≠ [])
    (htarget : WellFormed target) : Substitutes source target := by
  intro before after h
  obtain ⟨hbefore, hafter⟩ := h.cut_part hsource hne
  exact hbefore.append (htarget.append hafter)

theorem Substitutes.insert (h : Substitutes (b :: source) target)
    (hb : isContinuation b = false) (hinserted : WellFormed inserted) :
    Substitutes (b :: source) (inserted ++ target) := by
  intro before after hwhole
  obtain ⟨hbefore, -⟩ := WellFormed.cut hwhole hb
  rw [List.append_assoc]
  exact hbefore.append (hinserted.append ((h before after hwhole).of_append hbefore))

end LatexIntegrity.Utf8
