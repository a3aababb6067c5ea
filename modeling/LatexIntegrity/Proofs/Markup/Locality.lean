import Mathlib.Data.List.Basic
import LatexIntegrity.Markup.Environment
import LatexIntegrity.Markup.Group

/-!
# Scanners stay inside the text and read no further than they count

Every scanner of markup answers with a number of bytes.  That many bytes are
there, and for all but the greedy ones the answer depends on no byte behind
them.
-/

namespace LatexIntegrity

/-- The scanner's answers count bytes that are there and depend on no others. -/
structure IsLocal (scan : Text → Option Nat) : Prop where
  fits : ∀ {text length}, scan text = some length → length ≤ text.length
  again : ∀ {text length}, scan text = some length →
    ∀ other, scan (text.take length ++ other) = some length

theorem IsLocal.intro {scan : Text → Option Nat}
    (h : ∀ {text length}, scan text = some length →
      length ≤ text.length ∧ ∀ other, scan (text.take length ++ other) = some length) :
    IsLocal scan :=
  ⟨fun hscan => (h hscan).1, fun hscan => (h hscan).2⟩

theorem findIdx?_take_append {p : UInt8 → Bool} {text : Text} {index : Nat}
    (h : text.findIdx? p = some index) (other : Text) :
    (text.take (index + 1) ++ other).findIdx? p = some index := by
  induction text generalizing index with
  | nil => simp at h
  | cons b rest ih =>
      rw [List.findIdx?_cons] at h
      split at h
      · next hb =>
          cases h
          simp [List.findIdx?_cons, hb]
      · next hb =>
          obtain ⟨shorter, hshorter, rfl⟩ := Option.map_eq_some_iff.mp h
          rw [List.take_succ_cons, List.cons_append, List.findIdx?_cons, if_neg hb,
            ih hshorter]
          rfl

namespace Group

inductive BraceStep where
  | exceeds
  | closes
  | goesOn (depth : Nat)

def braceStep (limit depth : Nat) (b : UInt8) : BraceStep :=
  if b == '{' then
    if limit < depth + 1 then .exceeds else .goesOn (depth + 1)
  else if b == '}' then
    match depth with
    | 0 => .closes
    | outer + 1 => .goesOn outer
  else .goesOn depth

theorem braceStep_open {limit depth : Nat} (h : depth < limit) :
    braceStep limit depth '{' = .goesOn (depth + 1) := by
  rw [braceStep.eq_def, if_pos (by decide), if_neg (by omega)]

theorem braceStep_open_of_le {limit depth : Nat} (h : limit ≤ depth) :
    braceStep limit depth '{' = .exceeds := by
  rw [braceStep.eq_def, if_pos (by decide), if_pos (by omega)]

theorem braceStep_close (limit : Nat) : braceStep limit 0 '}' = .closes := rfl

theorem braceStep_close_inner (limit outer : Nat) :
    braceStep limit (outer + 1) '}' = .goesOn outer := rfl

theorem braceStep_byte {limit depth : Nat} {b : UInt8} (hopen : b ≠ '{') (hclose : b ≠ '}') :
    braceStep limit depth b = .goesOn depth := by
  rw [braceStep.eq_def, if_neg (by simpa using hopen), if_neg (by simpa using hclose)]

theorem eq_of_braceStep_closes {limit depth : Nat} {b : UInt8}
    (h : braceStep limit depth b = .closes) : b = '}' := by
  rw [braceStep.eq_def] at h
  split at h
  · split at h <;> cases h
  · split at h
    · next hclose => exact beq_iff_eq.mp hclose
    · cases h

theorem closing?_cons {b : UInt8} (hb : b ≠ '\\') (limit depth : Nat) (rest : Text) :
    closing? limit depth (b :: rest) =
      match braceStep limit depth b with
      | .exceeds => none
      | .closes => some 1
      | .goesOn depth => (closing? limit depth rest).map (· + 1) := by
  rw [closing?.eq_def]
  simp only [braceStep, beq_eq_false_iff_ne.mpr hb, Bool.false_eq_true, if_false]
  split
  · split <;> rfl
  · split
    · cases depth <;> rfl
    · rfl

theorem closing?_literal {limit depth : Nat} (b : UInt8) (rest : Text) :
    closing? limit depth (('\\' : UInt8) :: b :: rest) =
      (closing? limit depth rest).map (· + 2) := by
  simp [closing?]

/--
The search for the brace that closes a group, in which `depth` inner groups are open, ends
behind so many bytes.
-/
inductive ClosesAt (limit : Nat) : Nat → Text → Nat → Prop where
  | here {depth : Nat} {b : UInt8} {rest : Text} :
      braceStep limit depth b = .closes → ClosesAt limit depth (b :: rest) 1
  | literal {depth length : Nat} (b : UInt8) {rest : Text} :
      ClosesAt limit depth rest length →
        ClosesAt limit depth (('\\' : UInt8) :: b :: rest) (length + 2)
  | byte {depth inner length : Nat} {b : UInt8} {rest : Text} :
      b ≠ '\\' → braceStep limit depth b = .goesOn inner → ClosesAt limit inner rest length →
        ClosesAt limit depth (b :: rest) (length + 1)

theorem ClosesAt.of_closing? {limit depth : Nat} {text : Text} {length : Nat}
    (h : closing? limit depth text = some length) : ClosesAt limit depth text length := by
  induction hn : text.length using Nat.strongRecOn generalizing text depth length with
  | ind n ih =>
      subst hn
      cases text with
      | nil => simp [closing?] at h
      | cons b rest =>
          by_cases hb : b = '\\'
          · subst hb
            cases rest with
            | nil => simp [closing?] at h
            | cons second behind =>
                rw [closing?_literal] at h
                obtain ⟨shorter, hshorter, rfl⟩ := Option.map_eq_some_iff.mp h
                exact (ih _ (by simp only [List.length_cons]; omega) hshorter rfl).literal second
          · rw [closing?_cons hb] at h
            cases hstep : braceStep limit depth b with
            | exceeds => simp [hstep] at h
            | closes =>
                obtain rfl : 1 = length := by simpa [hstep] using h
                exact .here hstep
            | goesOn inner =>
                rw [hstep] at h
                obtain ⟨shorter, hshorter, rfl⟩ := Option.map_eq_some_iff.mp h
                exact .byte hb hstep (ih _ (by simp) hshorter rfl)

theorem closing?_eq_some_iff {limit depth : Nat} {text : Text} {length : Nat} :
    closing? limit depth text = some length ↔ ClosesAt limit depth text length := by
  refine ⟨.of_closing?, fun h => ?_⟩
  induction h with
  | @here _ b _ hstep =>
      have hb : b ≠ '\\' := by
        rw [eq_of_braceStep_closes hstep]
        decide
      rw [closing?_cons hb, hstep]
  | literal b _ ih =>
      rw [closing?_literal, ih]
      rfl
  | byte hb hstep _ ih =>
      rw [closing?_cons hb, hstep]
      exact congrArg (Option.map (· + 1)) ih

theorem closing?_isLocal (limit depth : Nat) : IsLocal (closing? limit depth) := by
  refine .intro ?_
  intro text length h
  simp only [closing?_eq_some_iff] at h ⊢
  induction h with
  | here hstep => exact ⟨by simp, fun other => .here hstep⟩
  | literal b _ ih => exact ⟨by simpa using ih.1, fun other => (ih.2 other).literal b⟩
  | byte hb hstep _ ih => exact ⟨by simpa using ih.1, fun other => .byte hb hstep (ih.2 other)⟩

theorem braced?_eq_some_iff_closing? {limit : Nat} {text : Text} {length : Nat} :
    braced? limit text = some length ↔
      ∃ rest inner, text = ('{' : UInt8) :: rest ∧ closing? limit 0 rest = some inner ∧
        length = inner + 1 := by
  constructor
  · intro h
    cases text with
    | nil => cases h
    | cons b rest =>
        rw [braced?] at h
        split at h
        · next hb =>
            obtain ⟨inner, hinner, rfl⟩ := Option.map_eq_some_iff.mp h
            exact ⟨rest, inner, by rw [beq_iff_eq.mp hb], hinner, rfl⟩
        · cases h
  · rintro ⟨rest, inner, rfl, hinner, rfl⟩
    simp [braced?, hinner]

theorem flat?_eq_some_iff_findIdx? {opener closer : UInt8} {text : Text} {length : Nat} :
    flat? opener closer text = some length ↔
      ∃ rest index, text = opener :: rest ∧ rest.findIdx? (· == closer) = some index ∧
        length = index + 2 := by
  constructor
  · intro h
    cases text with
    | nil => cases h
    | cons b rest =>
        rw [flat?] at h
        split at h
        · next hb =>
            obtain ⟨index, hindex, rfl⟩ := Option.map_eq_some_iff.mp h
            exact ⟨rest, index, by rw [beq_iff_eq.mp hb], hindex, rfl⟩
        · cases h
  · rintro ⟨rest, index, rfl, hindex, rfl⟩
    simp [flat?, hindex]

theorem head?_of_braced?_eq_some {limit : Nat} {text : Text} {length : Nat}
    (h : braced? limit text = some length) : text.head? = some ('{' : UInt8) := by
  obtain ⟨rest, inner, rfl, -, -⟩ := braced?_eq_some_iff_closing?.mp h
  rfl

theorem head?_of_flat?_eq_some {opener closer : UInt8} {text : Text} {length : Nat}
    (h : flat? opener closer text = some length) : text.head? = some opener := by
  obtain ⟨rest, index, rfl, -, -⟩ := flat?_eq_some_iff_findIdx?.mp h
  rfl

theorem braced?_isLocal (limit : Nat) : IsLocal (braced? limit) := by
  refine .intro ?_
  intro text length h
  obtain ⟨rest, inner, rfl, hinner, rfl⟩ := braced?_eq_some_iff_closing?.mp h
  have hlocal := closing?_isLocal limit 0
  exact ⟨by simpa using hlocal.fits hinner,
    fun other => braced?_eq_some_iff_closing?.mpr ⟨_, inner, rfl, hlocal.again hinner other, rfl⟩⟩

theorem braced?_pos {limit : Nat} {text : Text} {length : Nat}
    (h : braced? limit text = some length) : 0 < length := by
  obtain ⟨rest, inner, -, -, rfl⟩ := braced?_eq_some_iff_closing?.mp h
  omega

theorem flat?_isLocal (opener closer : UInt8) : IsLocal (flat? opener closer) := by
  refine .intro ?_
  intro text length h
  obtain ⟨rest, index, rfl, hindex, rfl⟩ := flat?_eq_some_iff_findIdx?.mp h
  have hlt : index < rest.length := (List.findIdx?_eq_some_iff_getElem.mp hindex).1
  exact ⟨by simpa [Nat.succ_le_iff] using hlt,
    fun other => flat?_eq_some_iff_findIdx?.mpr
      ⟨_, index, rfl, findIdx?_take_append hindex other, rfl⟩⟩

theorem flat?_pos {opener closer : UInt8} {text : Text} {length : Nat}
    (h : flat? opener closer text = some length) : 0 < length := by
  obtain ⟨rest, index, -, -, rfl⟩ := flat?_eq_some_iff_findIdx?.mp h
  omega

end Group

/-! ## Runs and control words -/

theorem takeWhile_take_append {p : UInt8 → Bool} {text : Text} {length : Nat}
    (hrun : (text.takeWhile p).length < length) (hfit : length ≤ text.length)
    (other : Text) : (text.take length ++ other).takeWhile p = text.takeWhile p := by
  induction text generalizing length with
  | nil =>
      simp only [List.length_nil, Nat.le_zero] at hfit
      omega
  | cons b rest ih =>
      cases length with
      | zero => omega
      | succ length =>
          rw [List.take_succ_cons, List.cons_append, List.takeWhile_cons,
            List.takeWhile_cons]
          split
          · next hb =>
              rw [List.takeWhile_cons_of_pos hb, List.length_cons] at hrun
              rw [ih (by omega) (by simpa using hfit)]
          · rfl

theorem take_length_takeWhile {α : Type} (p : α → Bool) (items : List α) :
    items.take (items.takeWhile p).length = items.takeWhile p :=
  (List.prefix_iff_eq_take.mp (List.takeWhile_prefix p)).symm

theorem drop_length_takeWhile {α : Type} (p : α → Bool) (items : List α) :
    items.drop (items.takeWhile p).length = items.dropWhile p := by
  have hsplit : items.takeWhile p ++ items.dropWhile p = items :=
    List.takeWhile_append_dropWhile
  have hdrop := congrArg (List.drop (items.takeWhile p).length) hsplit
  rwa [List.drop_left, eq_comm] at hdrop

theorem head?_eq_of_controlWord_ne_nil {text : Text} (h : controlWord text ≠ []) :
    text.head? = some ('\\' : UInt8) := by
  cases text with
  | nil => exact absurd rfl h
  | cons b rest =>
      rw [controlWord] at h
      split at h
      · next hb => simpa using hb
      · exact absurd rfl h

theorem eq_cons_controlWord_append {text : Text}
    (h : text.head? = some ('\\' : UInt8)) :
    text = ('\\' : UInt8) :: (controlWord text ++ afterControlWord text) := by
  cases text with
  | nil => simp at h
  | cons b rest =>
      obtain rfl : b = ('\\' : UInt8) := by simpa using h
      rw [afterControlWord, Nat.add_comm, List.drop_succ_cons]
      simp [controlWord, drop_length_takeWhile]

theorem isLetter_of_mem_controlWord {text : Text} {b : UInt8} (h : b ∈ controlWord text) :
    Ascii.isLetter b = true := by
  cases text with
  | nil => simp [controlWord] at h
  | cons first rest =>
      rw [controlWord] at h
      split at h
      · exact List.all_eq_true.mp List.all_takeWhile b h
      · simp at h

theorem isLetter_head_afterControlWord {text : Text} {b : UInt8}
    (hhead : text.head? = some ('\\' : UInt8))
    (h : (afterControlWord text).head? = some b) : Ascii.isLetter b = false := by
  cases text with
  | nil => simp at hhead
  | cons first rest =>
      obtain rfl : first = ('\\' : UInt8) := by simpa using hhead
      rw [afterControlWord, Nat.add_comm, List.drop_succ_cons] at h
      simp only [controlWord, beq_self_eq_true, if_true, drop_length_takeWhile] at h
      have hnot := List.head?_dropWhile_not Ascii.isLetter rest
      rw [h] at hnot
      simpa using hnot

theorem controlWord_cons_append {word behind : Text}
    (hword : ∀ b ∈ word, Ascii.isLetter b = true)
    (hbehind : ∀ b, behind.head? = some b → Ascii.isLetter b = false) :
    controlWord (('\\' : UInt8) :: (word ++ behind)) = word := by
  rw [controlWord, beq_self_eq_true, if_pos rfl, List.takeWhile_append_of_pos hword]
  cases behind with
  | nil => simp
  | cons b rest => simp [hbehind b rfl]

theorem afterControlWord_cons_append {word behind : Text}
    (hword : ∀ b ∈ word, Ascii.isLetter b = true)
    (hbehind : ∀ b, behind.head? = some b → Ascii.isLetter b = false) :
    afterControlWord (('\\' : UInt8) :: (word ++ behind)) = behind := by
  rw [afterControlWord, controlWord_cons_append hword hbehind, Nat.add_comm,
    List.drop_succ_cons, List.drop_left]

theorem controlWord_append {text : Text} (hhead : text.head? = some ('\\' : UInt8))
    (hafter : afterControlWord text ≠ []) (other : Text) :
    controlWord (text ++ other) = controlWord text ∧
      afterControlWord (text ++ other) = afterControlWord text ++ other := by
  have hbehind : ∀ b, (afterControlWord text ++ other).head? = some b →
      Ascii.isLetter b = false := by
    intro b hb
    refine isLetter_head_afterControlWord hhead ?_
    rwa [List.head?_append_of_ne_nil _ hafter] at hb
  have hsplit : text ++ other =
      ('\\' : UInt8) :: (controlWord text ++ (afterControlWord text ++ other)) := by
    conv_lhs => rw [eq_cons_controlWord_append hhead]
    simp
  rw [hsplit]
  exact ⟨controlWord_cons_append (fun b => isLetter_of_mem_controlWord) hbehind,
    afterControlWord_cons_append (fun b => isLetter_of_mem_controlWord) hbehind⟩

theorem controlWord_take_append {text : Text} {length : Nat}
    (hhead : text.head? = some ('\\' : UInt8)) (hpos : 0 < length)
    (hfit : length ≤ (afterControlWord text).length) (other : Text) :
    controlWord (text.take (1 + (controlWord text).length + length) ++ other) =
        controlWord text ∧
      afterControlWord (text.take (1 + (controlWord text).length + length) ++ other) =
        (afterControlWord text).take length ++ other := by
  have htake := congrArg (List.take (1 + (controlWord text).length + length))
    (eq_cons_controlWord_append hhead)
  rw [Nat.add_assoc, Nat.add_comm 1, List.take_succ_cons,
    List.take_length_add_append] at htake
  have hbehind : ∀ b, ((afterControlWord text).take length ++ other).head? = some b →
      Ascii.isLetter b = false := by
    intro b hb
    refine isLetter_head_afterControlWord hhead ?_
    cases hafter : afterControlWord text with
    | nil => simp [hafter] at hfit; omega
    | cons first rest =>
        obtain ⟨length, rfl⟩ := Nat.exists_eq_add_of_lt hpos
        simpa [hafter] using hb
  rw [Nat.add_assoc, Nat.add_comm 1, htake, List.cons_append, List.append_assoc]
  exact ⟨controlWord_cons_append (fun b => isLetter_of_mem_controlWord) hbehind,
    afterControlWord_cons_append (fun b => isLetter_of_mem_controlWord) hbehind⟩

end LatexIntegrity
