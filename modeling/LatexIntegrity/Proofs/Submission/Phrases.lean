import Mathlib.Data.List.TakeWhile
import LatexIntegrity.Submission.Anonymity

/-!
# What phrases and links are made of

A phrase reads the bytes of its words and white space, and a link those of an address, an owner
and a separator.  What holds of all such bytes holds of what is read.
-/

namespace LatexIntegrity.Submission

variable {text : Text} {offset : Nat} {p : UInt8 → Prop}

/-! ## Parts of a text -/

theorem forall_mem_take_add {first second : Nat} (hfirst : ∀ b ∈ text.take first, p b)
    (hsecond : ∀ b ∈ (text.drop first).take second, p b) :
    ∀ b ∈ text.take (first + second), p b := by
  rw [List.take_add]
  exact List.forall_mem_append.mpr ⟨hfirst, hsecond⟩

theorem forall_mem_take_takeWhile {q : UInt8 → Bool} (hq : ∀ b, q b = true → p b) (text : Text) :
    ∀ b ∈ text.take (text.takeWhile q).length, p b := by
  rw [← List.prefix_iff_eq_take.mp (List.takeWhile_prefix q)]
  exact fun b hb => hq b (List.mem_takeWhile_imp hb)

theorem forall_mem_of_lower (hfold : ∀ b, p (Ascii.toLower b) → p b) {length : Nat}
    (h : ∀ b ∈ ((Ascii.lower text).drop offset).take length, p b) :
    ∀ b ∈ (text.drop offset).take length, p b := by
  rw [Ascii.lower, ← List.map_drop, ← List.map_take] at h
  exact fun b hb => hfold b (List.forall_mem_map.mp h b hb)

/-! ## Phrases -/

def Phrase.HasBytes (p : UInt8 → Prop) (phrase : Phrase) : Prop :=
  ∀ slot ∈ phrase, ∀ word ∈ slot, ∀ b ∈ word, p b

theorem forall_mem_slot {slot : List Text} {length : Nat} (hslot : ∀ word ∈ slot, ∀ b ∈ word, p b)
    (h : slotLength? slot text = some length) : ∀ b ∈ text.take length, p b := by
  obtain ⟨word, hword, rfl⟩ := Option.map_eq_some_iff.mp h
  have hstarts : word <+: text := by simpa using List.find?_some hword
  rw [← List.prefix_iff_eq_take.mp hstarts]
  exact hslot word (List.mem_of_find?_eq_some hword)

theorem forall_mem_furtherLength? (hgap : ∀ b, isGap b = true → p b) {slots : Phrase}
    (hslots : slots.HasBytes p) {length : Nat} (h : furtherLength? slots text = some length) :
    ∀ b ∈ text.take length, p b := by
  fun_induction furtherLength? slots text generalizing length with
  | case1 rest =>
      obtain rfl := Option.some.inj h
      exact List.forall_mem_nil _
  | case2 slot slots rest gap hnone => cases h
  | case3 slot slots rest gap hsome ih =>
      obtain ⟨hslot, hslots⟩ := List.forall_mem_cons.mp hslots
      obtain ⟨word, hword, h⟩ := Option.bind_eq_some_iff.mp h
      obtain ⟨others, hothers, h⟩ := Option.bind_eq_some_iff.mp h
      obtain rfl := Option.some.inj h
      have hgaps : ∀ b ∈ rest.take gap, p b := forall_mem_take_takeWhile hgap rest
      exact forall_mem_take_add (forall_mem_take_add hgaps (forall_mem_slot hslot hword))
        (ih word hslots hothers)

theorem forall_mem_phraseLength? (hgap : ∀ b, isGap b = true → p b) {phrase : Phrase}
    (hphrase : phrase.HasBytes p) {length : Nat} (h : phraseLength? phrase text = some length) :
    ∀ b ∈ text.take length, p b := by
  cases phrase with
  | nil =>
      obtain rfl := Option.some.inj h
      exact List.forall_mem_nil _
  | cons slot slots =>
      obtain ⟨hslot, hslots⟩ := List.forall_mem_cons.mp hphrase
      obtain ⟨word, hword, h⟩ := Option.bind_eq_some_iff.mp h
      obtain ⟨others, hothers, h⟩ := Option.bind_eq_some_iff.mp h
      obtain rfl := Option.some.inj h
      exact forall_mem_take_add (forall_mem_slot hslot hword)
        (forall_mem_furtherLength? hgap hslots hothers)

theorem phraseLength?_of_findPhrase? {phrase : Phrase} {afterLetter : Bool} {place length : Nat}
    (h : findPhrase? phrase afterLetter offset text = some (place, length)) :
    ∃ distance, place = offset + distance ∧
      phraseLength? phrase (text.drop distance) = some length := by
  fun_induction findPhrase? phrase afterLetter offset text with
  | case1 => cases h
  | case2 afterLetter offset b rest length' hfound =>
      obtain ⟨rfl, rfl⟩ := Prod.mk.inj (Option.some.inj h)
      split at hfound
      · cases hfound
      · exact ⟨0, rfl, hfound⟩
  | case3 afterLetter offset b rest hnone ih =>
      obtain ⟨distance, rfl, hphrase⟩ := ih h
      exact ⟨distance + 1, by omega, hphrase⟩

/-! ## Links -/

theorem forall_mem_repositoryLength? {address : Text} {length : Nat}
    (h : repositoryLength? address text = some length) (hstarts : address <+: text)
    (haddress : ∀ b ∈ address, p b) (howner : ∀ b, isOwnerByte b = true → p b) (hslash : p '/') :
    ∀ b ∈ text.take length, p b := by
  obtain ⟨behind, rfl⟩ := hstarts
  rw [repositoryLength?, List.drop_left] at h
  split at h
  · next hlink =>
      obtain rfl := Option.some.inj h
      obtain ⟨-, hseparator⟩ := (Bool.and_eq_true_iff).mp hlink
      obtain ⟨rest, hrest⟩ := List.head?_eq_some_iff.mp (of_decide_eq_true hseparator)
      refine forall_mem_take_add (forall_mem_take_add (by rwa [List.take_left]) ?_) ?_
      · rw [List.drop_left]
        exact forall_mem_take_takeWhile howner behind
      · rw [List.drop_length_add_append, hrest]
        simpa using hslash
  · cases h

end LatexIntegrity.Submission
