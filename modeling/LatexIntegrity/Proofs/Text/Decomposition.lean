import LatexIntegrity.Proofs.Text.ScalarValue

/-!
# The repair of ill-formed texts

A text falls in exactly one way into forms of scalar values and maximal ill-formed subparts.
The chunks are that decomposition, and the repair writes one U+FFFD for each of the subparts.
-/

namespace LatexIntegrity.Utf8

variable {text part rest : Text} {lead : UInt8} {parts : List Chunk}

def WellFormed (text : Text) : Prop := ∃ chars : List Char, text = chars.flatMap form

/-- The head of a text if it begins a form, or if it is a single byte. -/
def IsSubpart (part text : Text) : Prop :=
  part ≠ [] ∧ part <+: text ∧ (part.length = 1 ∨ ∃ c, part <+: form c)

/-- Where no form stands, the longest head of a text that begins one, or else one byte. -/
structure IsMaximalSubpart (part text : Text) : Prop where
  unconvertible : ∀ c, ¬form c <+: text
  isSubpart : IsSubpart part text
  longest : ∀ other, IsSubpart other text → other.length ≤ part.length

inductive Decomposes : Text → List Chunk → Prop
  | nil : Decomposes [] []
  | scalar {rest : Text} {parts : List Chunk} (c : Char) (later : Decomposes rest parts) :
      Decomposes (form c ++ rest) (⟨form c, true⟩ :: parts)
  | subpart {part rest : Text} {parts : List Chunk}
      (maximal : IsMaximalSubpart part (part ++ rest)) (later : Decomposes rest parts) :
      Decomposes (part ++ rest) (⟨part, false⟩ :: parts)

/-! ## The first chunk -/

theorem firstChunk_of_some {ranges : List ByteRange} (h : followers lead = some ranges) :
    firstChunk lead rest =
      ⟨lead :: rest.take (accepted ranges rest), accepted ranges rest == ranges.length⟩ := by
  rw [firstChunk, h]

theorem firstChunk_of_none (h : followers lead = none) :
    firstChunk lead rest = ⟨[lead], false⟩ := by
  rw [firstChunk, h]

theorem firstChunk_bytes (lead : UInt8) (rest : Text) :
    ∃ count, (firstChunk lead rest).bytes = lead :: rest.take count ∧ count ≤ rest.length := by
  cases hlead : followers lead with
  | none => exact ⟨0, by rw [firstChunk_of_none hlead, List.take_zero], Nat.zero_le _⟩
  | some ranges => exact ⟨_, by rw [firstChunk_of_some hlead], (accepted_le _ _).2⟩

theorem firstChunk_of_form {c : Char} (h : form c <+: lead :: rest) :
    firstChunk lead rest = ⟨form c, true⟩ := by
  obtain ⟨first, tail, hform⟩ := exists_form_eq_cons c
  rw [hform, List.cons_prefix_cons] at h
  obtain ⟨rfl, htail⟩ := h
  obtain ⟨ranges, hlead, hfollow⟩ := follow_of_form hform
  have hlength : ranges.length = tail.length := List.Forall₂.length_eq hfollow
  have hcount : accepted ranges rest = tail.length := by
    refine Nat.le_antisymm (hlength ▸ (accepted_le _ _).1) (length_le_accepted htail ?_)
    rwa [← hlength, List.take_length]
  rw [firstChunk_of_some hlead, hcount, hlength, ← List.prefix_iff_eq_take.mp htail, hform]
  simp

theorem form_of_firstChunk (h : (firstChunk lead rest).wellFormed = true) :
    ∃ c, (firstChunk lead rest).bytes = form c := by
  cases hlead : followers lead with
  | none => simp [firstChunk_of_none hlead] at h
  | some ranges =>
      rw [firstChunk_of_some hlead] at h ⊢
      have hfollow := follow_accepted ranges rest
      rw [beq_iff_eq.mp h, List.take_length] at hfollow
      obtain ⟨c, hc⟩ := exists_form_of_follow hlead hfollow
      exact ⟨c, by rw [hc, beq_iff_eq.mp h]⟩

theorem isMaximalSubpart_firstChunk (h : (firstChunk lead rest).wellFormed = false) :
    IsMaximalSubpart (firstChunk lead rest).bytes (lead :: rest) := by
  have hnone : ∀ c, ¬form c <+: lead :: rest := by
    intro c hc
    simp [firstChunk_of_form hc] at h
  obtain ⟨count, hbytes, -⟩ := firstChunk_bytes lead rest
  have hprefix : (firstChunk lead rest).bytes <+: lead :: rest := by
    rw [hbytes, List.cons_prefix_cons]
    exact ⟨rfl, List.take_prefix _ _⟩
  have hne : (firstChunk lead rest).bytes ≠ [] := by simp [hbytes]
  have hpositive := List.length_pos_iff.mpr hne
  -- A part with a second byte begins a form, and the ranges behind its lead byte accept it.
  have hlongest : ∀ other, IsSubpart other (lead :: rest) →
      other.length = 1 ∨ ∃ ranges, followers lead = some ranges ∧
        other.length ≤ accepted ranges rest + 1 := by
    rintro other ⟨hother, hstarts, hone | ⟨c, hc⟩⟩
    · exact .inl hone
    · obtain ⟨first, part, rfl⟩ := List.exists_cons_of_ne_nil hother
      obtain ⟨rfl, hpart⟩ := List.cons_prefix_cons.mp hstarts
      obtain ⟨ranges, hlead, hfollow⟩ := begins_form_iff.mp ⟨c, hc⟩
      exact .inr ⟨ranges, hlead, Nat.succ_le_succ (length_le_accepted hpart hfollow)⟩
  cases hlead : followers lead with
  | none =>
      refine ⟨hnone, ⟨hne, hprefix, .inl (by rw [firstChunk_of_none hlead]; rfl)⟩, ?_⟩
      intro other hother
      rcases hlongest other hother with hone | ⟨ranges, hsome, -⟩
      · omega
      · rw [hlead] at hsome
        cases hsome
  | some ranges =>
      have haccepted := accepted_le ranges rest
      have hlength : (rest.take (accepted ranges rest)).length = accepted ranges rest :=
        List.length_take_of_le haccepted.2
      have hfollow := follow_accepted ranges rest
      refine ⟨hnone, ⟨hne, hprefix, .inr ?_⟩, ?_⟩
      · rw [firstChunk_of_some hlead]
        exact begins_form_iff.mpr ⟨ranges, hlead, by rwa [hlength]⟩
      · intro other hother
        rcases hlongest other hother with hone | ⟨ranges', hsome, hother⟩
        · omega
        · obtain rfl := Option.some.inj (hlead.symm.trans hsome)
          rwa [firstChunk_of_some hlead, List.length_cons, hlength]

theorem firstChunk_of_isMaximalSubpart (h : IsMaximalSubpart part (lead :: rest)) :
    firstChunk lead rest = ⟨part, false⟩ := by
  have hill : (firstChunk lead rest).wellFormed = false := by
    rw [← Bool.not_eq_true]
    intro hwell
    obtain ⟨c, hc⟩ := form_of_firstChunk hwell
    obtain ⟨count, hbytes, -⟩ := firstChunk_bytes lead rest
    refine h.unconvertible c ?_
    rw [← hc, hbytes, List.cons_prefix_cons]
    exact ⟨rfl, List.take_prefix _ _⟩
  have hfirst := isMaximalSubpart_firstChunk hill
  have hlength : (firstChunk lead rest).bytes.length = part.length :=
    Nat.le_antisymm (h.longest _ hfirst.isSubpart) (hfirst.longest _ h.isSubpart)
  have hbytes : (firstChunk lead rest).bytes = part := by
    rw [List.prefix_iff_eq_take.mp hfirst.isSubpart.2.1, hlength,
      ← List.prefix_iff_eq_take.mp h.isSubpart.2.1]
  rw [← hbytes, ← hill]

/-! ## All chunks -/

theorem chunks_append {chunk : Chunk} (h : chunk.bytes ≠ [])
    (hfirst : ∀ lead tail, chunk.bytes = lead :: tail →
      firstChunk lead (tail ++ rest) = chunk) :
    chunks (chunk.bytes ++ rest) = chunk :: chunks rest := by
  obtain ⟨lead, tail, hbytes⟩ := List.exists_cons_of_ne_nil h
  have hdrop : (tail ++ rest).drop (chunk.bytes.length - 1) = rest := by simp [hbytes]
  rw [hbytes, List.cons_append, chunks, hfirst lead tail hbytes, hdrop]

theorem chunks_form (c : Char) (rest : Text) :
    chunks (form c ++ rest) = ⟨form c, true⟩ :: chunks rest := by
  obtain ⟨lead, tail, hform⟩ := exists_form_eq_cons c
  refine @chunks_append rest ⟨form c, true⟩ (by simp [hform]) fun first later hbytes => ?_
  refine firstChunk_of_form ?_
  rw [← List.cons_append, ← hbytes]
  exact List.prefix_append _ _

theorem chunks_subpart (h : IsMaximalSubpart part (part ++ rest)) :
    chunks (part ++ rest) = ⟨part, false⟩ :: chunks rest := by
  refine @chunks_append rest ⟨part, false⟩ h.isSubpart.1 fun first later hbytes => ?_
  refine firstChunk_of_isMaximalSubpart ?_
  rw [← List.cons_append, ← hbytes]
  exact h

/-- The chunks are a decomposition, and the only one. -/
theorem decomposes_iff : Decomposes text parts ↔ parts = chunks text := by
  constructor
  · intro h
    induction h with
    | nil => rw [chunks]
    | scalar c later ih => rw [chunks_form, ih]
    | subpart maximal later ih => rw [chunks_subpart maximal, ih]
  · rintro rfl
    fun_induction chunks text with
    | case1 => exact .nil
    | case2 lead rest chunk ih =>
        obtain ⟨count, hbytes, hcount⟩ := firstChunk_bytes lead rest
        have hlength : chunk.bytes.length - 1 = count := by
          simp [chunk, hbytes, hcount]
        rw [hlength] at ih ⊢
        have htext : lead :: rest = chunk.bytes ++ rest.drop count := by
          rw [show chunk.bytes = _ from hbytes, List.cons_append, List.take_append_drop]
        cases hwell : chunk.wellFormed with
        | true =>
            obtain ⟨c, hc⟩ := form_of_firstChunk hwell
            have hchunk : chunk = ⟨form c, true⟩ := by rw [← hc, ← hwell]
            rw [htext, hchunk]
            exact .scalar c ih
        | false =>
            have hmaximal := isMaximalSubpart_firstChunk hwell
            have hchunk : chunk = ⟨chunk.bytes, false⟩ := by rw [← hwell]
            rw [htext] at hmaximal ⊢
            rw [hchunk]
            exact .subpart hmaximal ih

theorem chunks_flatMap_form (chars : List Char) :
    chunks (chars.flatMap form) = chars.map fun c => ⟨form c, true⟩ := by
  induction chars with
  | nil => rw [List.flatMap_nil, chunks, List.map_nil]
  | cons c chars ih => rw [List.flatMap_cons, chunks_form, ih, List.map_cons]

/-! ## The repaired text -/

theorem replacement_eq_form : replacement = form '\uFFFD' := by decide

theorem codePoints_form (c : Char) : codePoints (form c) = 1 := by
  obtain ⟨lead, rest, hform⟩ := exists_form_eq_cons c
  obtain ⟨hlead, hrest⟩ := isContinuation_of_form hform
  have hnone : rest.countP (!isContinuation ·) = 0 := by
    rw [List.countP_eq_zero]
    intro b hb
    simp [hrest b hb]
  rw [hform, codePoints, List.countP_cons_of_pos (by simp [hlead]), hnone]

theorem codePoints_flatMap_form (chars : List Char) :
    codePoints (chars.flatMap form) = chars.length := by
  induction chars with
  | nil => rfl
  | cons c chars ih =>
      rw [List.flatMap_cons, codePoints, List.countP_append]
      change codePoints (form c) + codePoints (chars.flatMap form) = _
      rw [codePoints_form, ih, List.length_cons, Nat.add_comm]

theorem Decomposes.exists_chars (h : Decomposes text parts) :
    ∃ chars : List Char, parts.flatMap Chunk.repaired = chars.flatMap form ∧
      chars.length = parts.length := by
  induction h with
  | nil => exact ⟨[], rfl, rfl⟩
  | scalar c later ih =>
      obtain ⟨chars, hchars, hlength⟩ := ih
      exact ⟨c :: chars, by rw [List.flatMap_cons, List.flatMap_cons, hchars]; rfl,
        by rw [List.length_cons, List.length_cons, hlength]⟩
  | subpart maximal later ih =>
      obtain ⟨chars, hchars, hlength⟩ := ih
      refine ⟨'\uFFFD' :: chars, ?_, by rw [List.length_cons, List.length_cons, hlength]⟩
      rw [List.flatMap_cons, List.flatMap_cons, hchars, ← replacement_eq_form]
      rfl

theorem Decomposes.flatMap_repaired (h : Decomposes text parts)
    (hall : ∀ part ∈ parts, part.wellFormed = true) : parts.flatMap Chunk.repaired = text := by
  induction h with
  | nil => rfl
  | scalar c later ih =>
      rw [List.flatMap_cons, ih fun part hpart => hall part (List.mem_cons_of_mem _ hpart)]
      rfl
  | subpart maximal later ih => cases hall _ List.mem_cons_self

theorem decomposes_chunks (text : Text) : Decomposes text (chunks text) :=
  decomposes_iff.mpr rfl

theorem wellFormed_repair (text : Text) : WellFormed (repair text) := by
  obtain ⟨chars, hchars, -⟩ := (decomposes_chunks text).exists_chars
  exact ⟨chars, hchars⟩

theorem replacements_eq_zero_iff : replacements text = 0 ↔
    ∀ chunk ∈ chunks text, chunk.wellFormed = true := by
  rw [replacements, List.countP_eq_zero]
  simp

theorem wellFormed_iff_replacements : WellFormed text ↔ replacements text = 0 := by
  rw [replacements_eq_zero_iff]
  constructor
  · rintro ⟨chars, rfl⟩ chunk hchunk
    rw [chunks_flatMap_form, List.mem_map] at hchunk
    obtain ⟨c, -, rfl⟩ := hchunk
    rfl
  · intro hall
    rw [← (decomposes_chunks text).flatMap_repaired hall]
    exact wellFormed_repair text

theorem repair_eq_self_iff : repair text = text ↔ WellFormed text := by
  constructor
  · intro h
    rw [← h]
    exact wellFormed_repair text
  · intro h
    rw [wellFormed_iff_replacements, replacements_eq_zero_iff] at h
    exact (decomposes_chunks text).flatMap_repaired h

theorem codePoints_repair (text : Text) : codePoints (repair text) =
    (chunks text).countP (·.wellFormed) + replacements text := by
  obtain ⟨chars, hchars, hlength⟩ := (decomposes_chunks text).exists_chars
  rw [repair, hchars, codePoints_flatMap_form, hlength, replacements,
    List.length_eq_countP_add_countP (·.wellFormed)]
  simp

/--
The repair writes each part of the one decomposition of a text as it is or as U+FFFD.  It is
well-formed, and it changes nothing exactly if the text is.
-/
theorem repair_exact (text : Text) :
    (∃ parts, (∀ other, Decomposes text other ↔ other = parts) ∧
      repair text = parts.flatMap (fun part =>
        if part.wellFormed then part.bytes else form '\uFFFD') ∧
      replacements text = parts.countP (!·.wellFormed) ∧
      codePoints (repair text) = parts.countP (·.wellFormed) + replacements text) ∧
    WellFormed (repair text) ∧
    (repair text = text ↔ WellFormed text) ∧
    (WellFormed text ↔ replacements text = 0) ∧
    repair (repair text) = repair text := by
  refine ⟨⟨chunks text, fun other => decomposes_iff, ?_, rfl, codePoints_repair text⟩,
    wellFormed_repair text, repair_eq_self_iff, wellFormed_iff_replacements,
    repair_eq_self_iff.mpr (wellFormed_repair text)⟩
  rw [← replacement_eq_form]
  rfl

/-- A form cut short is one subpart, and a continuation byte by itself is another. -/
example : chunks [0xE2, 0x82, 0x41, 0xC3, 0xA9, 0x80] =
    [⟨[0xE2, 0x82], false⟩, ⟨[0x41], true⟩, ⟨[0xC3, 0xA9], true⟩, ⟨[0x80], false⟩] := by
  decide +kernel

end LatexIntegrity.Utf8
