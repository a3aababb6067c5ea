import LatexIntegrity.Proofs.Markup.Locality

/-!
# The languages of argument groups

Flat groups and brace groups are described by what they look like, and the scanners
find exactly the groups at the head of a text.  A brace group is a recursive language;
the scanner that recognises it keeps no more than the number of open groups.
-/

namespace LatexIntegrity.Group

/-! ## Flat groups -/

def IsFlat (opener closer : UInt8) (group : Text) : Prop :=
  ∃ body, group = opener :: (body ++ [closer]) ∧ closer ∉ body

section Flat

variable {opener closer : UInt8} {group text : Text} {length : Nat}

theorem flat?_append (h : IsFlat opener closer group) (rest : Text) :
    flat? opener closer (group ++ rest) = some group.length := by
  obtain ⟨body, rfl, hbody⟩ := h
  have hfirst : (body ++ closer :: rest).findIdx? (· == closer) = some body.length := by
    have hnone : body.findIdx? (· == closer) = none := by
      rw [List.findIdx?_eq_none_iff]
      intro b hb
      exact beq_false_of_ne fun heq => hbody (heq ▸ hb)
    rw [List.findIdx?_append, hnone]
    simp [List.findIdx?_cons]
  simp [flat?, hfirst]

theorem isFlat_of_flat? (h : flat? opener closer text = some length) :
    IsFlat opener closer (text.take length) := by
  obtain ⟨rest, index, rfl, hindex, rfl⟩ := flat?_eq_some_iff_findIdx?.mp h
  obtain ⟨hlt, hcloser, hbefore⟩ := List.findIdx?_eq_some_iff_getElem.mp hindex
  refine ⟨rest.take index, ?_, ?_⟩
  · rw [List.take_succ_cons, ← List.take_append_getElem hlt, beq_iff_eq.mp hcloser]
  · intro hmem
    obtain ⟨place, hplace, hget⟩ := List.getElem_of_mem hmem
    rw [List.length_take] at hplace
    rw [List.getElem_take] at hget
    have hnot := hbefore place (by omega)
    simp [hget] at hnot

theorem argument?_eq_some_iff : argument? text = some length ↔
    ∃ inner rest : Text, text = ('{' : UInt8) :: (inner ++ [('}' : UInt8)]) ++ rest ∧
      ('}' : UInt8) ∉ inner ∧ length = inner.length + 2 := by
  constructor
  · intro h
    have hfit := (flat?_isLocal '{' '}').fits h
    obtain ⟨inner, hgroup, hclosed⟩ := isFlat_of_flat? h
    have hlength := congrArg List.length hgroup
    rw [List.length_take_of_le hfit] at hlength
    exact ⟨inner, text.drop length, by rw [← hgroup, List.take_append_drop], hclosed,
      by simpa using hlength⟩
  · rintro ⟨inner, rest, rfl, hclosed, rfl⟩
    rw [argument?, flat?_append ⟨inner, rfl, hclosed⟩]
    simp

theorem body_append (opener closer : UInt8) (inner rest : Text) :
    body (inner.length + 2) (opener :: (inner ++ [closer]) ++ rest) = inner := by
  simp [body]

end Flat

/-! ## Brace groups -/

/-- What may stand between the braces of a group with at most `limit` inner levels. -/
inductive IsBody : Nat → Text → Prop where
  | nil {limit : Nat} : IsBody limit []
  /-- A backslash and the byte that it takes literally. -/
  | literal {limit : Nat} (b : UInt8) {rest : Text} :
      IsBody limit rest → IsBody limit (('\\' : UInt8) :: b :: rest)
  | byte {limit : Nat} {b : UInt8} {rest : Text} :
      b ≠ '\\' → b ≠ '{' → b ≠ '}' → IsBody limit rest → IsBody limit (b :: rest)
  | group {limit : Nat} {inner rest : Text} :
      IsBody limit inner → IsBody (limit + 1) rest →
        IsBody (limit + 1) (('{' : UInt8) :: (inner ++ ('}' : UInt8) :: rest))

def IsBraced (limit : Nat) (group : Text) : Prop :=
  ∃ body, group = ('{' : UInt8) :: (body ++ [('}' : UInt8)]) ∧ IsBody limit body

variable {limit depth : Nat} {text : Text} {length : Nat}

theorem closing?_open (h : depth < limit) (rest : Text) :
    closing? limit depth (('{' : UInt8) :: rest) =
      (closing? limit (depth + 1) rest).map (· + 1) := by
  rw [closing?_cons (by decide), braceStep_open h]

theorem closing?_close_inner (outer : Nat) (rest : Text) :
    closing? limit (outer + 1) (('}' : UInt8) :: rest) =
      (closing? limit outer rest).map (· + 1) := by
  rw [closing?_cons (by decide), braceStep_close_inner]

theorem closing?_close (rest : Text) : closing? limit 0 (('}' : UInt8) :: rest) = some 1 := by
  rw [closing?_cons (by decide), braceStep_close]

theorem closing?_byte {b : UInt8} (hbackslash : b ≠ '\\') (hopen : b ≠ '{') (hclose : b ≠ '}')
    (rest : Text) : closing? limit depth (b :: rest) = (closing? limit depth rest).map (· + 1) := by
  rw [closing?_cons hbackslash, braceStep_byte hopen hclose]

theorem map_add_map_add (found : Option Nat) (first second : Nat) :
    (found.map (· + first)).map (· + second) = found.map (· + (first + second)) := by
  simp [Option.map_map, Function.comp_def, Nat.add_assoc]

theorem closing?_append {inner : Nat} {body : Text} (h : IsBody inner body)
    (hdepth : depth + inner ≤ limit) (rest : Text) :
    closing? limit depth (body ++ rest) =
      (closing? limit depth rest).map (· + body.length) := by
  induction h generalizing depth rest with
  | nil => simp
  | literal b _ ih =>
      rw [List.cons_append, List.cons_append, closing?_literal, ih hdepth, map_add_map_add]
      rfl
  | byte hbackslash hopen hclose _ ih =>
      rw [List.cons_append, closing?_byte hbackslash hopen hclose, ih hdepth, map_add_map_add]
      rfl
  | @group inner between behind _ _ ihInner ihRest =>
      rw [List.cons_append, closing?_open (by omega), List.append_assoc,
        ihInner (by omega), List.cons_append, closing?_close_inner, ihRest hdepth]
      simp only [map_add_map_add, List.length_cons, List.length_append]
      congr 2
      funext found
      omega

/--
The search in a text goes past a body of the levels that are left, to a brace that
closes a group.
-/
structure FindsBrace (limit depth : Nat) (text : Text) (length : Nat) (body rest : Text) :
    Prop where
  text_eq : text = body ++ ('}' : UInt8) :: rest
  isBody : IsBody (limit - depth) body
  closing : (closing? limit depth (('}' : UInt8) :: rest)).map (· + body.length) = some length

namespace FindsBrace

variable {body rest : Text}

theorem here (h : closing? limit depth (('}' : UInt8) :: rest) = some length) :
    FindsBrace limit depth (('}' : UInt8) :: rest) length [] rest :=
  ⟨rfl, .nil, by simp [h]⟩

theorem literal (h : FindsBrace limit depth text length body rest) (b : UInt8) :
    FindsBrace limit depth (('\\' : UInt8) :: b :: text) (length + 2)
      (('\\' : UInt8) :: b :: body) rest := by
  obtain ⟨last, hlast, rfl⟩ := Option.map_eq_some_iff.mp h.closing
  exact ⟨by rw [h.text_eq]; rfl, h.isBody.literal b, by rw [hlast]; rfl⟩

theorem byte (h : FindsBrace limit depth text length body rest) {b : UInt8}
    (hbackslash : b ≠ '\\') (hopen : b ≠ '{') (hclose : b ≠ '}') :
    FindsBrace limit depth (b :: text) (length + 1) (b :: body) rest := by
  obtain ⟨last, hlast, rfl⟩ := Option.map_eq_some_iff.mp h.closing
  exact ⟨by rw [h.text_eq]; rfl, h.isBody.byte hbackslash hopen hclose, by rw [hlast]; rfl⟩

theorem group {inner behind : Text} (hinner : IsBody (limit - (depth + 1)) inner)
    (hroom : depth < limit) (h : FindsBrace limit depth behind length body rest) :
    FindsBrace limit depth (('{' : UInt8) :: (inner ++ ('}' : UInt8) :: behind))
      (length + 1 + inner.length + 1)
      (('{' : UInt8) :: (inner ++ ('}' : UInt8) :: body)) rest := by
  obtain ⟨last, hlast, rfl⟩ := Option.map_eq_some_iff.mp h.closing
  have hbody := h.isBody
  obtain ⟨room, rfl⟩ := Nat.exists_eq_add_of_lt hroom
  rw [show depth + room + 1 - (depth + 1) = room by omega] at hinner
  rw [show depth + room + 1 - depth = room + 1 by omega] at hbody
  refine ⟨by simp [h.text_eq], ?_, ?_⟩
  · rw [show depth + room + 1 - depth = room + 1 by omega]
    exact hinner.group hbody
  · simp only [hlast, Option.map_some, Option.some.injEq, List.length_cons, List.length_append]
    omega

end FindsBrace

theorem exists_findsBrace (h : closing? limit depth text = some length) (hdepth : depth ≤ limit) :
    ∃ body rest, FindsBrace limit depth text length body rest := by
  -- What stands behind an inner group is not a tail that the recursion names, only a shorter text.
  induction hn : text.length using Nat.strongRecOn generalizing text depth length with
  | ind n ih =>
      subst hn
      cases text with
      | nil => simp [closing?] at h
      | cons b rest =>
          by_cases hbackslash : b = '\\'
          · subst hbackslash
            cases rest with
            | nil => simp [closing?] at h
            | cons second behind =>
                rw [closing?_literal] at h
                obtain ⟨shorter, hshorter, rfl⟩ := Option.map_eq_some_iff.mp h
                obtain ⟨body, after, hfinds⟩ :=
                  ih _ (by simp only [List.length_cons]; omega) hshorter hdepth rfl
                exact ⟨_, _, hfinds.literal second⟩
          · by_cases hclose : b = '}'
            · subst hclose
              exact ⟨_, _, .here h⟩
            · by_cases hopen : b = '{'
              · subst hopen
                by_cases hroom : depth < limit
                · -- The search closes the inner group first, and then goes on at this depth.
                  rw [closing?_open hroom] at h
                  obtain ⟨shorter, hshorter, rfl⟩ := Option.map_eq_some_iff.mp h
                  obtain ⟨inner, behind, rfl, hinner, hfirst⟩ :=
                    ih _ (by simp) hshorter hroom rfl
                  rw [closing?_close_inner, Option.map_map] at hfirst
                  obtain ⟨length, hbehind, rfl⟩ := Option.map_eq_some_iff.mp hfirst
                  obtain ⟨body, after, hfinds⟩ := ih _ (by simp; omega) hbehind hdepth rfl
                  exact ⟨_, _, hfinds.group hinner hroom⟩
                · rw [closing?_cons (by decide), braceStep_open_of_le (Nat.le_of_not_lt hroom)] at h
                  cases h
              · rw [closing?_byte hbackslash hopen hclose] at h
                obtain ⟨shorter, hshorter, rfl⟩ := Option.map_eq_some_iff.mp h
                obtain ⟨body, after, hfinds⟩ := ih _ (by simp) hshorter hdepth rfl
                exact ⟨_, _, hfinds.byte hbackslash hopen hclose⟩

theorem braced?_append {group : Text} (h : IsBraced limit group) (rest : Text) :
    braced? limit (group ++ rest) = some group.length := by
  obtain ⟨body, rfl, hbody⟩ := h
  have hfound : closing? limit 0 (body ++ ('}' : UInt8) :: rest) = some (body.length + 1) := by
    rw [closing?_append hbody (by omega), closing?_close, Option.map_some, Nat.add_comm]
  simp [braced?, hfound]

theorem isBraced_of_braced? (h : braced? limit text = some length) :
    IsBraced limit (text.take length) := by
  obtain ⟨inner, found, rfl, hfound, rfl⟩ := braced?_eq_some_iff_closing?.mp h
  obtain ⟨body, behind, rfl, hbody, hclose⟩ := exists_findsBrace hfound (Nat.zero_le limit)
  rw [closing?_close, Option.map_some, Option.some.injEq] at hclose
  refine ⟨body, ?_, hbody⟩
  rw [← hclose, List.take_succ_cons, Nat.add_comm 1, List.take_length_add_append]
  rfl

theorem IsBody.mono {limit limit' : Nat} (hlimit : limit ≤ limit') {body : Text}
    (h : IsBody limit body) : IsBody limit' body := by
  induction h generalizing limit' with
  | nil => exact .nil
  | literal b _ ih => exact (ih hlimit).literal b
  | byte hbackslash hopen hclose _ ih => exact (ih hlimit).byte hbackslash hopen hclose
  | group _ _ ihInner ihRest =>
      obtain ⟨more, rfl⟩ := Nat.exists_eq_add_of_le' hlimit
      exact (ihInner (Nat.le_add_left _ more)).group (ihRest hlimit)

theorem IsBraced.mono {limit' : Nat} (hlimit : limit ≤ limit') {group : Text}
    (h : IsBraced limit group) : IsBraced limit' group := by
  obtain ⟨body, hgroup, hbody⟩ := h
  exact ⟨body, hgroup, hbody.mono hlimit⟩

theorem braced?_eq_some_of_isBraced {limit' : Nat} {group rest : Text} (h : IsBraced limit' group)
    (hfound : braced? limit (group ++ rest) = some length) :
    length = group.length ∧ IsBraced limit group := by
  have hshort := isBraced_of_braced? hfound
  rcases Nat.le_total limit' limit with hlimit | hlimit
  · rw [braced?_append (h.mono hlimit), Option.some.injEq] at hfound
    exact ⟨hfound.symm, h.mono hlimit⟩
  · -- With the higher limit both groups are found at the same place.
    have hfit := (braced?_isLocal limit).fits hfound
    have hlength := List.length_take_of_le hfit
    have hsame := braced?_append (hshort.mono hlimit) ((group ++ rest).drop length)
    rw [List.take_append_drop, braced?_append h, hlength, Option.some.injEq] at hsame
    rw [← hsame, List.take_left] at hshort
    exact ⟨hsame.symm, hshort⟩

end LatexIntegrity.Group
