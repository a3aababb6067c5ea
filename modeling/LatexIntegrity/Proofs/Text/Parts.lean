import Mathlib.Data.List.TakeWhile
import LatexIntegrity.Text.Basic

/-!
# Parts of a text

What trimming and splitting leave, by where it stands in the text.
-/

namespace LatexIntegrity.Text

variable {p : UInt8 → Bool} {text body : Text}

/-! ## Trimming -/

theorem dropWhile_eq_self (h : ∀ b ∈ text.head?, p b = false) : text.dropWhile p = text := by
  cases text with
  | nil => rfl
  | cons b rest => rw [List.dropWhile_cons_of_neg (by simp [h b rfl])]

theorem exists_append_dropWhile (p : UInt8 → Bool) (text : Text) :
    ∃ left : Text, (∀ b ∈ left, p b = true) ∧ text = left ++ text.dropWhile p ∧
      ∀ b ∈ (text.dropWhile p).head?, p b = false := by
  refine ⟨text.takeWhile p, fun b hb => List.mem_takeWhile_imp hb,
    List.takeWhile_append_dropWhile.symm, fun b hb => ?_⟩
  have hhead := List.head?_dropWhile_not p text
  rwa [Option.mem_def.mp hb] at hhead

theorem trim_eq_iff : trim p text = body ↔
    ((∀ b ∈ body.head?, p b = false) ∧ ∀ b ∈ body.getLast?, p b = false) ∧
      ∃ left right : Text, (∀ b ∈ left, p b = true) ∧ (∀ b ∈ right, p b = true) ∧
        text = left ++ body ++ right := by
  constructor
  · rintro rfl
    obtain ⟨left, hleft, htext, hfirst⟩ := exists_append_dropWhile p text
    rw [trim, trimStart, trimEnd]
    generalize text.dropWhile p = rest at htext hfirst
    obtain ⟨right, hright, hrest, hlast⟩ := exists_append_dropWhile p rest.reverse
    generalize rest.reverse.dropWhile p = content at hrest hlast
    have hrest : rest = content.reverse ++ right.reverse := by
      rw [← List.reverse_append, ← hrest, List.reverse_reverse]
    refine ⟨⟨fun b hb => hfirst b ?_, fun b hb => hlast b ?_⟩, left, right.reverse, hleft,
      fun b hb => hright b (List.mem_reverse.mp hb), ?_⟩
    · rw [hrest, List.head?_append, Option.mem_def.mp hb]
      rfl
    · rwa [List.getLast?_reverse] at hb
    · rw [htext, hrest, List.append_assoc]
  · rintro ⟨⟨hfirst, hlast⟩, left, right, hleft, hright, rfl⟩
    rw [trim, trimStart, trimEnd, List.append_assoc, List.dropWhile_append_of_pos hleft]
    cases body with
    | nil =>
        rw [List.nil_append, List.dropWhile_eq_nil_iff.mpr hright]
        rfl
    | cons b rest =>
        have hstart : (b :: rest ++ right).dropWhile p = b :: rest ++ right :=
          dropWhile_eq_self hfirst
        have hend : (b :: rest).reverse.dropWhile p = (b :: rest).reverse :=
          dropWhile_eq_self (by rwa [List.head?_reverse])
        have hback : ∀ b ∈ right.reverse, p b = true :=
          fun b hb => hright b (List.mem_reverse.mp hb)
        rw [hstart, List.reverse_append, List.dropWhile_append_of_pos hback, hend,
          List.reverse_reverse]

/-! ## Splitting -/

theorem splitFirst?_eq_some_iff {separator : UInt8} {left right : Text} :
    splitFirst? separator text = some (left, right) ↔
      text = left ++ separator :: right ∧ separator ∉ left := by
  constructor
  · intro h
    have hsplit := @List.takeWhile_append_dropWhile _ (· != separator) text
    have hhead := List.head?_dropWhile_not (· != separator) text
    have hleft : separator ∉ text.takeWhile (· != separator) := fun hmem => by
      simpa using List.mem_takeWhile_imp hmem
    rw [splitFirst?] at h
    split at h
    · cases h
    · next b after hdrop =>
        cases h
        rw [hdrop] at hsplit hhead
        obtain rfl : b = separator := by simpa using hhead
        exact ⟨hsplit.symm, hleft⟩
  · rintro ⟨rfl, hleft⟩
    have hall : ∀ b ∈ left, (b != separator) = true := fun b hb => by
      simpa using ne_of_mem_of_not_mem hb hleft
    rw [splitFirst?, List.dropWhile_append_of_pos hall, List.takeWhile_append_of_pos hall,
      List.dropWhile_cons_of_neg (by simp), List.takeWhile_cons_of_neg (by simp)]
    simp

theorem eq_of_append_cons_eq {separator : UInt8} {left right left' right' : Text}
    (hleft : separator ∉ left) (hleft' : separator ∉ left')
    (h : left ++ separator :: right = left' ++ separator :: right') :
    left = left' ∧ right = right' := by
  have hsplit := splitFirst?_eq_some_iff.mpr ⟨h, hleft'⟩
  rw [splitFirst?_eq_some_iff.mpr ⟨rfl, hleft⟩] at hsplit
  exact Prod.mk.inj (Option.some.inj hsplit)

end LatexIntegrity.Text
