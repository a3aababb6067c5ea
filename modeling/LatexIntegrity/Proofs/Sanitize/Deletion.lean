import LatexIntegrity.Text.Utf8
import LatexIntegrity.Proofs.Sanitize.Rewriting
import LatexIntegrity.Proofs.Sanitize.Typography

/-!
# Deleted characters

An entry with an empty replacement deletes its key.  A text whose regions stay when the
deleted keys are taken out beforehand is escaped to the same output without them.
-/

namespace LatexIntegrity

namespace EscapeTable

/-- A plain run behind `context` without the keys that are deleted from it. -/
def strip (table : EscapeTable) (context : LeftContext) (run : Text) : Text :=
  match run with
  | [] => []
  | b :: rest =>
      match table.match? (b :: rest) with
      | some entry =>
          if entry.replacement.isEmpty && !context.escaped then
            table.strip (context.pushAll entry.key) (rest.drop (entry.key.length - 1))
          else b :: table.strip (context.push b) rest
      | none => b :: table.strip (context.push b) rest
  termination_by run.length
  decreasing_by all_goals simp only [List.length_drop, List.length_cons]; omega

def stripRegions (table : EscapeTable) : LeftContext → List Region → List Region
  | _, [] => []
  | context, region :: rest =>
      let body :=
        if region.kind.isShielded then region.body else table.strip context region.body
      let others := table.stripRegions (context.pushAll region.body) rest
      if body.isEmpty then others else ⟨region.kind, region.name, body⟩ :: others

def strippedRegions (table : EscapeTable) (text : Text) : List Region :=
  table.stripRegions .initial (regions text)

/-- A text without the keys that are deleted from its plain spans. -/
def stripped (table : EscapeTable) (text : Text) : Text :=
  (table.strippedRegions text).flatMap (·.body)

/-- No byte that continues a character stands directly behind a key that is deleted. -/
def JoinsCharacters (table : EscapeTable) (text : Text) : Prop :=
  ∀ entry ∈ table.entries, entry.replacement = [] →
    ∀ b ∈ text, Utf8.isContinuation b = true → ¬entry.key ++ [b] <:+: text

instance (table : EscapeTable) (text : Text) : Decidable (table.JoinsCharacters text) :=
  decidable_of_iff (∀ entry ∈ table.entries, entry.replacement = [] →
      (text.all fun b => Utf8.isContinuation b = true → ¬entry.key ++ [b] <:+: text) = true)
    (by simp only [List.all_eq_true, decide_eq_true_eq, JoinsCharacters])

namespace JoinsCharacters

variable {table : EscapeTable} {text : Text}

theorem not_joined (h : table.JoinsCharacters text) {entry : EscapeRule}
    (hentry : entry ∈ table.entries) (hempty : entry.replacement = []) {b : UInt8}
    (hb : Utf8.isContinuation b = true) : ¬entry.key ++ [b] <:+: text :=
  fun hwithin => h entry hentry hempty b (hwithin.subset (by simp)) hb hwithin

theorem of_infix {part : Text} (h : table.JoinsCharacters text) (hpart : part <:+: text) :
    table.JoinsCharacters part :=
  fun _ hentry hempty _ _ hb hwithin => h.not_joined hentry hempty hb (hwithin.trans hpart)

end JoinsCharacters

/--
Taking the deleted keys out of a text leaves its regions as they are, and brings no
halves of characters together.
-/
structure DeletesSafely (table : EscapeTable) (text : Text) : Prop where
  regions : regions (table.stripped text) = table.strippedRegions text
  joins : table.JoinsCharacters text

instance (table : EscapeTable) (text : Text) : Decidable (table.DeletesSafely text) :=
  decidable_of_iff (_ ∧ _) ⟨fun ⟨regions, joins⟩ => ⟨regions, joins⟩,
    fun ⟨regions, joins⟩ => ⟨regions, joins⟩⟩

structure HasCharacterKeys (table : EscapeTable) : Prop where
  head : ∀ entry ∈ table.entries, (entry.key.head?.any fun b => !Utf8.isContinuation b) = true
  tail : ∀ entry ∈ table.entries, ∀ b ∈ entry.key.tail, Utf8.isContinuation b = true
  unique : ∀ entry ∈ table.entries, ∀ other ∈ table.entries,
    entry.key <+: other.key → entry = other

namespace HasCharacterKeys

variable {table : EscapeTable} (htable : table.HasCharacterKeys) {entry : EscapeRule}

include htable

theorem exists_cons (hentry : entry ∈ table.entries) :
    ∃ first tail, entry.key = first :: tail ∧ Utf8.isContinuation first = false ∧
      ∀ b ∈ tail, Utf8.isContinuation b = true := by
  have hhead := htable.head entry hentry
  have htail := htable.tail entry hentry
  cases hkey : entry.key with
  | nil => simp [hkey] at hhead
  | cons first tail =>
      rw [hkey] at hhead htail
      exact ⟨first, tail, rfl, by simpa using hhead, htail⟩

theorem match?_key (hentry : entry ∈ table.entries) (rest : Text) :
    table.match? (entry.key ++ rest) = some entry := by
  obtain ⟨first, tail, hkey, -⟩ := htable.exists_cons hentry
  cases hmatch : table.match? (entry.key ++ rest) with
  | none =>
      rcases match?_eq_none_iff.mp hmatch with hnil | hnone
      · rw [hkey] at hnil
        cases hnil
      · exact absurd (List.prefix_append _ _) (hnone entry hentry)
  | some found =>
      obtain ⟨hfound, hstarts⟩ := match?_eq_some hmatch
      rcases List.prefix_or_prefix_of_prefix hstarts (List.prefix_append entry.key rest) with
        h | h
      · rw [htable.unique found hfound entry hentry h]
      · rw [htable.unique entry hentry found hfound h]

theorem match?_continuation {b : UInt8} (hb : Utf8.isContinuation b = true) (rest : Text) :
    table.match? (b :: rest) = none := by
  refine match?_eq_none_iff.mpr (.inr fun entry hentry hstarts => ?_)
  obtain ⟨first, tail, hkey, hfirst, -⟩ := htable.exists_cons hentry
  rw [hkey] at hstarts
  rw [(List.cons_prefix_cons.mp hstarts).1, hb] at hfirst
  cases hfirst

theorem strip_tail (context : LeftContext) {bytes : Text}
    (hbytes : ∀ b ∈ bytes, Utf8.isContinuation b = true) (rest : Text) :
    table.strip context (bytes ++ rest) = bytes ++ table.strip (context.pushAll bytes) rest := by
  induction bytes generalizing context with
  | nil => rfl
  | cons b others ih =>
      rw [List.cons_append, strip, htable.match?_continuation (hbytes b List.mem_cons_self)]
      exact congrArg (b :: ·) (ih _ fun b hb => hbytes b (List.mem_cons_of_mem _ hb))

theorem strip_induction {motive : LeftContext → Text → Text → Prop}
    (nil : ∀ context, motive context [] [])
    (delete : ∀ {context entry rest}, entry ∈ table.entries → entry.replacement = [] →
      context.escaped = false →
        motive (context.pushAll entry.key) rest
          (table.strip (context.pushAll entry.key) rest) →
            motive context (entry.key ++ rest) (table.strip (context.pushAll entry.key) rest))
    (replace : ∀ {context entry rest}, entry ∈ table.entries → entry.replacement ≠ [] →
      context.escaped = false →
        motive (context.pushAll entry.key) rest
          (table.strip (context.pushAll entry.key) rest) →
            motive context (entry.key ++ rest)
              (entry.key ++ table.strip (context.pushAll entry.key) rest))
    (copy : ∀ {context b rest},
      (context.escaped = true ∨ table.match? (b :: rest) = none) →
        motive (context.push b) rest (table.strip (context.push b) rest) →
          motive context (b :: rest) (b :: table.strip (context.push b) rest))
    (context : LeftContext) (run : Text) : motive context run (table.strip context run) := by
  -- Behind a key the pass goes on with less than a tail, so the induction is on the length.
  induction hn : run.length using Nat.strongRecOn generalizing context run with
  | ind n ih =>
      subst hn
      cases run with
      | nil =>
          rw [strip]
          exact nil context
      | cons b rest =>
          cases hmatch : table.match? (b :: rest) with
          | none =>
              rw [strip, hmatch]
              exact copy (.inr hmatch) (ih _ (Nat.lt_succ_self _) _ rest rfl)
          | some entry =>
              cases hescaped : context.escaped with
              | true =>
                  rw [strip, hmatch]
                  simp only [hescaped, Bool.not_true, Bool.and_false, Bool.false_eq_true, if_false]
                  exact copy (.inl hescaped) (ih _ (Nat.lt_succ_self _) _ rest rfl)
              | false =>
                  obtain ⟨hentry, behind, hbehind⟩ := match?_eq_some hmatch
                  obtain ⟨first, tail, hkey, -, htail⟩ := htable.exists_cons hentry
                  have hshorter : behind.length < (b :: rest).length := by
                    rw [← hbehind, hkey, List.length_append, List.length_cons]
                    omega
                  have hrest := ih _ hshorter (context.pushAll entry.key) behind rfl
                  rw [hkey, List.cons_append, List.cons.injEq] at hbehind
                  obtain ⟨rfl, rfl⟩ := hbehind
                  have hlength : entry.key.length - 1 = tail.length := by rw [hkey]; rfl
                  by_cases hempty : entry.replacement = []
                  · have hwhole := delete hentry hempty hescaped hrest
                    rw [hkey] at hwhole
                    rw [strip, hmatch]
                    simpa [hempty, hescaped, hlength, hkey] using hwhole
                  · have hwhole := replace hentry hempty hescaped hrest
                    rw [hkey] at hwhole
                    rw [strip, hmatch]
                    simpa [hempty, hescaped, htable.strip_tail _ htail] using hwhole

theorem prefix_of_prefix_strip (context : LeftContext) (run : Text) :
    table.JoinsCharacters run → ∀ bytes : Text,
      (∀ b ∈ bytes, Utf8.isContinuation b = true) → bytes <+: table.strip context run →
        bytes <+: run := by
  refine htable.strip_induction (motive := fun _ run target => table.JoinsCharacters run →
    ∀ bytes : Text, (∀ b ∈ bytes, Utf8.isContinuation b = true) → bytes <+: target →
      bytes <+: run) ?_ ?_ ?_ ?_ context run
  · exact fun _ _ _ _ h => h
  · intro context entry rest hentry hempty _ ih hjoins bytes hbytes h
    have hrest := ih (hjoins.of_infix (List.suffix_append _ _).isInfix) bytes hbytes h
    cases bytes with
    | nil => exact List.nil_prefix
    | cons b others =>
        obtain ⟨behind, rfl⟩ := hrest
        refine absurd ?_ (hjoins.not_joined hentry hempty (hbytes b List.mem_cons_self))
        exact ⟨[], others ++ behind, by simp⟩
  · intro context entry rest hentry _ _ _ _ bytes hbytes h
    obtain ⟨first, tail, hkey, hfirst, -⟩ := htable.exists_cons hentry
    cases bytes with
    | nil => exact List.nil_prefix
    | cons b others =>
        rw [hkey] at h
        rw [← (List.cons_prefix_cons.mp h).1, hbytes b List.mem_cons_self] at hfirst
        cases hfirst
  · intro context b rest _ ih hjoins bytes hbytes h
    rcases List.prefix_cons_iff.mp h with rfl | ⟨others, rfl, hothers⟩
    · exact List.nil_prefix
    · exact List.cons_prefix_cons.mpr ⟨rfl, ih (hjoins.of_infix (List.suffix_cons _ _).isInfix)
        others (fun b hb => hbytes b (List.mem_cons_of_mem _ hb)) hothers⟩

theorem match?_strip {context : LeftContext} {b : UInt8} {rest : Text}
    (hjoins : table.JoinsCharacters rest) (hnone : table.match? (b :: rest) = none) :
    table.match? (b :: table.strip context rest) = none := by
  refine match?_eq_none_iff.mpr (.inr fun entry hentry hstarts => ?_)
  obtain ⟨first, tail, hkey, -, htail⟩ := htable.exists_cons hentry
  rw [hkey] at hstarts
  obtain ⟨rfl, hbehind⟩ := List.cons_prefix_cons.mp hstarts
  have hrest := htable.prefix_of_prefix_strip context rest hjoins tail htail hbehind
  rcases match?_eq_none_iff.mp hnone with hnil | hnone
  · cases hnil
  · exact hnone entry hentry (hkey ▸ List.cons_prefix_cons.mpr ⟨rfl, hrest⟩)

end HasCharacterKeys

end EscapeTable

end LatexIntegrity
