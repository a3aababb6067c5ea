import LatexIntegrity.Proofs.Markup.Groups
import Mathlib.Computability.Language

/-!
# Brace groups as a formal language

A brace group is an opening brace, any number of items and a closing brace, where an
item is an escaped byte, a byte that is neither a backslash nor a brace, or a group of
the next lower level.  The scan, which counts the open groups and gives up at the first
one too many, finds at every offset the one member of this language that begins there.
-/

namespace LatexIntegrity.Group

open scoped Computability

/-! ## The language -/

def escapes : Language UInt8 := {item | ∃ b : UInt8, item = [('\\' : UInt8), b]}

def plainBytes : Language UInt8 :=
  {item | ∃ b : UInt8, b ≠ '\\' ∧ b ≠ '{' ∧ b ≠ '}' ∧ item = [b]}

def items (inner : Language UInt8) : Language UInt8 := escapes + plainBytes + inner

def enclosed (inner : Language UInt8) : Language UInt8 :=
  {[('{' : UInt8)]} * (items inner)∗ * {[('}' : UInt8)]}

/-- Brace groups with at most so many levels of groups inside. -/
def groups : Nat → Language UInt8
  | 0 => enclosed 0
  | level + 1 => enclosed (groups level)

/-! ## Bodies as sequences of items -/

section Items

variable {inner : Language UInt8} {limit : Nat} {body group : Text}

theorem mem_enclosed_iff :
    group ∈ enclosed inner ↔
      ∃ body ∈ (items inner)∗, group = ('{' : UInt8) :: (body ++ [('}' : UInt8)]) := by
  constructor
  · intro h
    obtain ⟨front, hfront, closer, rfl, rfl⟩ := Language.mem_mul.mp h
    obtain ⟨opener, rfl, body, hbody, rfl⟩ := Language.mem_mul.mp hfront
    exact ⟨body, hbody, rfl⟩
  · rintro ⟨body, hbody, rfl⟩
    have hfront := Language.mem_mul.mpr ⟨[('{' : UInt8)], Set.mem_singleton _, body, hbody, rfl⟩
    exact Language.mem_mul.mpr ⟨_, hfront, [('}' : UInt8)], Set.mem_singleton _, rfl⟩

theorem IsBody.item_append {item : Text} (hbody : IsBody limit body) (hitem : item ∈ items inner)
    (hinner : ∀ group ∈ inner, ∃ room, limit = room + 1 ∧ IsBraced room group) :
    IsBody limit (item ++ body) := by
  obtain (⟨b, rfl⟩ | ⟨b, hbackslash, hopen, hclose, rfl⟩) | hgroup := hitem
  · exact hbody.literal b
  · exact hbody.byte hbackslash hopen hclose
  · obtain ⟨room, rfl, between, rfl, hbetween⟩ := hinner item hgroup
    simpa using hbetween.group hbody

theorem isBody_of_mem_kstar (h : body ∈ (items inner)∗)
    (hinner : ∀ group ∈ inner, ∃ room, limit = room + 1 ∧ IsBraced room group) :
    IsBody limit body := by
  rw [Language.mem_kstar] at h
  obtain ⟨pieces, rfl, hpieces⟩ := h
  induction pieces with
  | nil => exact .nil
  | cons item rest ih =>
      obtain ⟨hitem, hrest⟩ := List.forall_mem_cons.mp hpieces
      exact (ih hrest).item_append hitem hinner

theorem item_append_mem_kstar {item : Text} (hitem : item ∈ items inner)
    (hbody : body ∈ (items inner)∗) : item ++ body ∈ (items inner)∗ := by
  have hle : items inner * (items inner)∗ ≤ (items inner)∗ := mul_kstar_le_kstar
  exact hle (Language.append_mem_mul hitem hbody)

theorem IsBody.mem_kstar (h : IsBody limit body)
    (hinner : ∀ group, (∃ room, limit = room + 1 ∧ IsBraced room group) → group ∈ inner) :
    body ∈ (items inner)∗ := by
  induction h with
  | nil => exact Language.nil_mem_kstar _
  | literal b _ ih =>
      have hitem : [('\\' : UInt8), b] ∈ items inner := .inl (.inl ⟨b, rfl⟩)
      exact item_append_mem_kstar hitem (ih hinner)
  | @byte limit b rest hbackslash hopen hclose _ ih =>
      have hitem : [b] ∈ items inner := .inl (.inr ⟨b, hbackslash, hopen, hclose, rfl⟩)
      exact item_append_mem_kstar hitem (ih hinner)
  | @group room between rest hbetween _ _ ihRest =>
      have hitem : ('{' : UInt8) :: (between ++ [('}' : UInt8)]) ∈ items inner :=
        .inr (hinner _ ⟨room, rfl, between, rfl, hbetween⟩)
      simpa using item_append_mem_kstar hitem (ihRest hinner)

theorem mem_enclosed_iff_isBraced
    (hinner : ∀ group, group ∈ inner ↔ ∃ room, limit = room + 1 ∧ IsBraced room group) :
    group ∈ enclosed inner ↔ IsBraced limit group := by
  rw [mem_enclosed_iff]
  constructor
  · rintro ⟨body, hbody, rfl⟩
    exact ⟨body, rfl, isBody_of_mem_kstar hbody fun group => (hinner group).mp⟩
  · rintro ⟨body, rfl, hbody⟩
    exact ⟨body, hbody.mem_kstar fun group => (hinner group).mpr, rfl⟩

end Items

variable {limit : Nat} {group text : Text} {length : Nat}

theorem mem_groups_iff : group ∈ groups limit ↔ IsBraced limit group := by
  induction limit generalizing group with
  | zero =>
      refine mem_enclosed_iff_isBraced fun group => ?_
      simp
  | succ level ih =>
      refine mem_enclosed_iff_isBraced fun group => ?_
      simp [ih]

/-! ## The scan -/

theorem braced?_eq_some_iff :
    braced? limit text = some length ↔ length ≤ text.length ∧ text.take length ∈ groups limit := by
  rw [mem_groups_iff]
  constructor
  · intro h
    exact ⟨(braced?_isLocal limit).fits h, isBraced_of_braced? h⟩
  · rintro ⟨hfit, hgroup⟩
    have hfound := braced?_append hgroup (text.drop length)
    rwa [List.take_append_drop, List.length_take_of_le hfit] at hfound

theorem braced?_eq_none_iff :
    braced? limit text = none ↔ ∀ group ∈ groups limit, ¬group <+: text := by
  constructor
  · rintro hnone group hgroup ⟨rest, rfl⟩
    cases hnone.symm.trans (braced?_append (mem_groups_iff.mp hgroup) rest)
  · intro hnone
    refine Option.eq_none_iff_forall_ne_some.mpr fun length hfound => ?_
    exact hnone _ (braced?_eq_some_iff.mp hfound).2 (List.take_prefix length text)

/-- A brace group with at most `limit` levels inside stands between two offsets of a text. -/
structure StandsBetween (limit : Nat) (text : Text) (start stop : Nat) : Prop where
  start_le : start ≤ stop
  stop_le : stop ≤ text.length
  isGroup : text.slice start stop ∈ groups limit

theorem map_braced?_eq_some_iff {start stop : Nat} :
    (braced? limit (text.drop start)).map (start + ·) = some stop ↔
      StandsBetween limit text start stop := by
  constructor
  · intro h
    obtain ⟨length, hlength, rfl⟩ := Option.map_eq_some_iff.mp h
    obtain ⟨hfit, hgroup⟩ := braced?_eq_some_iff.mp hlength
    rw [List.length_drop] at hfit
    -- Behind the end of the text only an empty group could stand.
    have hpos := braced?_pos hlength
    exact ⟨Nat.le_add_right start length, by omega, by rwa [Text.slice, Nat.add_sub_cancel_left]⟩
  · rintro ⟨hstart, hstop, hgroup⟩
    have hfit : stop - start ≤ (text.drop start).length := by
      rw [List.length_drop]
      omega
    rw [braced?_eq_some_iff.mpr ⟨hfit, hgroup⟩, Option.map_some, Nat.add_sub_cancel' hstart]

/--
In every text and at every offset, the scan answers with the place behind the brace group that
begins there.  No two groups begin at one offset, and the scan answers nothing where no group
begins: where the bytes are no group at all, or one with too many levels inside.
-/
theorem braced?_exact (limit : Nat) (text : Text) (start : Nat) :
    (∀ stop, (braced? limit (text.drop start)).map (start + ·) = some stop ↔
      StandsBetween limit text start stop) ∧
      {stop | StandsBetween limit text start stop}.Subsingleton ∧
      (braced? limit (text.drop start) = none ↔
        ∀ group ∈ groups limit, ¬group <+: text.drop start) := by
  refine ⟨fun _ => map_braced?_eq_some_iff, fun stop hgroup other hother => ?_,
    braced?_eq_none_iff⟩
  have hfound := map_braced?_eq_some_iff.mpr hgroup
  exact Option.some.inj (hfound.symm.trans (map_braced?_eq_some_iff.mpr hother))

/-- An escaped brace closes nothing, one level too many ends the scan, and so does the text. -/
example : braced? 1 "\x7ba\\\x7d\x7bb\x7d\x7dc" = some 8 ∧
    braced? 0 "\x7ba\\\x7d\x7bb\x7d\x7dc" = none ∧ braced? 1 "\x7ba\\" = none := by
  decide

end LatexIntegrity.Group
