import Mathlib.Data.List.Sort
import LatexIntegrity.Sanitize.Table

/-!
# Escape tables

A table holds the first definition of each key that the list it is made of defines, and no empty
key.  Its entries are in the order of their lengths, so that the first key found at a place is
the longest one there.  In which order different keys were listed does not matter.
-/

namespace LatexIntegrity

namespace EscapeRule

/-- The entry is the first one of a list with its key, which is not empty. -/
def IsDefinedBy (entries : List EscapeRule) (entry : EscapeRule) : Prop :=
  entry.key ≠ [] ∧ ∃ before behind, entries = before ++ entry :: behind ∧
    ∀ other ∈ before, other.key ≠ entry.key

/-- Of the defined keys at the head of a text, the one of the entry is the longest. -/
structure IsLongestAt (entries : List EscapeRule) (text : Text) (entry : EscapeRule) : Prop where
  defined : entry.IsDefinedBy entries
  starts : entry.key <+: text
  longest : ∀ other : EscapeRule, other.IsDefinedBy entries → other.key <+: text →
    other.key.length ≤ entry.key.length

variable {entries others : List EscapeRule} {entry other : EscapeRule} {seen : List Text}
  {text : Text}

/-! ## First definitions -/

theorem key_eq_of_find? {key : Text} (h : entries.find? (·.key == key) = some entry) :
    entry.key = key := by
  simpa using List.find?_some h

theorem isDefinedBy_iff_find? : entry.IsDefinedBy entries ↔
    entry.key ≠ [] ∧ entries.find? (·.key == entry.key) = some entry := by
  simp [IsDefinedBy, List.find?_eq_some_iff_append]

theorem IsDefinedBy.eq_of_key (h : entry.IsDefinedBy entries) (h' : other.IsDefinedBy entries)
    (hkey : entry.key = other.key) : entry = other := by
  have hfound := (isDefinedBy_iff_find?.mp h).2
  rw [hkey, (isDefinedBy_iff_find?.mp h').2] at hfound
  exact (Option.some.inj hfound).symm

theorem isDefinedBy_cons_iff : entry.IsDefinedBy (other :: entries) ↔
    entry.key ≠ [] ∧ entry = other ∨ other.key ≠ entry.key ∧ entry.IsDefinedBy entries := by
  rw [isDefinedBy_iff_find?, isDefinedBy_iff_find?]
  by_cases hkey : other.key = entry.key
  · rw [List.find?_cons_of_pos (by simpa using hkey), Option.some_inj, eq_comm]
    simp [hkey]
  · have hne : entry ≠ other := fun h => hkey (h ▸ rfl)
    rw [List.find?_cons_of_neg (by simpa using hkey)]
    simp [hkey, hne]

theorem exists_isDefinedBy_iff {key : Text} :
    (∃ entry : EscapeRule, entry.IsDefinedBy entries ∧ entry.key = key) ↔
      key ≠ [] ∧ ∃ entry ∈ entries, entry.key = key := by
  induction entries with
  | nil => simp [IsDefinedBy]
  | cons first rest ih =>
      simp only [isDefinedBy_cons_iff, List.mem_cons, exists_eq_or_imp]
      by_cases hfirst : first.key = key
      · subst hfirst
        constructor
        · rintro ⟨entry, ⟨hne, rfl⟩ | ⟨hother, -⟩, hkey⟩
          · exact ⟨hne, .inl rfl⟩
          · exact absurd hkey.symm hother
        · exact fun ⟨hne, _⟩ => ⟨first, .inl ⟨hne, rfl⟩, rfl⟩
      · rw [or_iff_right hfirst, ← ih]
        refine exists_congr fun entry => and_congr_left ?_
        rintro rfl
        have hne : entry ≠ first := fun h => hfirst (h ▸ rfl)
        simp [hfirst, hne]

theorem isDefinedBy_congr
    (h : ∀ key, others.filter (·.key == key) = entries.filter (·.key == key)) :
    entry.IsDefinedBy others ↔ entry.IsDefinedBy entries := by
  rw [isDefinedBy_iff_find?, isDefinedBy_iff_find?, ← List.head?_filter, ← List.head?_filter, h]

theorem isLongestAt_congr
    (h : ∀ key, others.filter (·.key == key) = entries.filter (·.key == key)) :
    entry.IsLongestAt others text ↔ entry.IsLongestAt entries text :=
  have hdefined (other : EscapeRule) : other.IsDefinedBy others ↔ other.IsDefinedBy entries :=
    isDefinedBy_congr h
  ⟨fun hl => ⟨(hdefined entry).mp hl.defined, hl.starts, fun other hother =>
    hl.longest other ((hdefined other).mpr hother)⟩,
    fun hl => ⟨(hdefined entry).mpr hl.defined, hl.starts, fun other hother =>
      hl.longest other ((hdefined other).mp hother)⟩⟩

theorem mem_firstOfEachKey_iff :
    entry ∈ firstOfEachKey seen entries ↔ entry.key ∉ seen ∧ entry.IsDefinedBy entries := by
  fun_induction firstOfEachKey seen entries with
  | case1 seen => simp [IsDefinedBy]
  | case2 seen first rest hskip ih =>
      rw [ih, isDefinedBy_cons_iff]
      refine and_congr_right fun hseen => ?_
      -- What is skipped is empty or seen before, and so it defines nothing.
      have hne : entry.key ≠ [] → first.key ≠ entry.key := by
        intro hnil hkey
        simp [hkey, hnil, hseen] at hskip
      constructor
      · exact fun h => .inr ⟨hne h.1, h⟩
      · rintro (⟨hnil, rfl⟩ | ⟨-, h⟩)
        · exact absurd rfl (hne hnil)
        · exact h
  | case3 seen first rest hkeep ih =>
      rw [Bool.or_eq_true, not_or, List.isEmpty_iff, List.contains_iff_mem] at hkeep
      rw [List.mem_cons, ih, isDefinedBy_cons_iff, List.mem_cons, not_or]
      constructor
      · rintro (rfl | ⟨⟨hne, hseen⟩, h⟩)
        · exact ⟨hkeep.2, .inl ⟨hkeep.1, rfl⟩⟩
        · exact ⟨hseen, .inr ⟨Ne.symm hne, h⟩⟩
      · rintro ⟨hseen, ⟨-, rfl⟩ | ⟨hne, h⟩⟩
        · exact .inl rfl
        · exact .inr ⟨⟨Ne.symm hne, hseen⟩, h⟩

theorem nodup_firstOfEachKey (seen : List Text) (entries : List EscapeRule) :
    ((firstOfEachKey seen entries).map (·.key)).Nodup := by
  fun_induction firstOfEachKey seen entries with
  | case1 seen => exact .nil
  | case2 seen first rest hskip ih => exact ih
  | case3 seen first rest hkeep ih =>
      refine List.nodup_cons.mpr ⟨fun hmem => ?_, ih⟩
      obtain ⟨entry, hentry, hkey⟩ := List.mem_map.mp hmem
      exact (mem_firstOfEachKey_iff.mp hentry).1 (hkey ▸ List.mem_cons_self)

/-! ## The order of the entries -/

def IsNotShorter (first second : EscapeRule) : Prop := second.key.length ≤ first.key.length

instance : DecidableRel IsNotShorter := fun _ _ => inferInstanceAs (Decidable (_ ≤ _))

instance : Std.Total IsNotShorter := ⟨fun _ second => Nat.le_total second.key.length _⟩

instance : IsTrans EscapeRule IsNotShorter := ⟨fun _ _ _ h h' => Nat.le_trans h' h⟩

theorem insertByLength_eq (entry : EscapeRule) (entries : List EscapeRule) :
    insertByLength entry entries = entries.orderedInsert IsNotShorter entry := by
  induction entries with
  | nil => rfl
  | cons first rest ih =>
      rw [insertByLength, List.orderedInsert_cons, ih]
      by_cases hlt : entry.key.length < first.key.length
      · rw [if_pos hlt, if_neg (show ¬IsNotShorter entry first from Nat.not_le.mpr hlt)]
      · rw [if_neg hlt, if_pos (show IsNotShorter entry first from Nat.not_lt.mp hlt)]

theorem longestFirst_eq (entries : List EscapeRule) :
    longestFirst entries = entries.insertionSort IsNotShorter := by
  rw [longestFirst, List.insertionSort, funext₂ insertByLength_eq]

end EscapeRule

namespace EscapeTable

open EscapeRule

variable {table : EscapeTable} {entries : List EscapeRule} {entry : EscapeRule} {text : Text}

theorem match?_eq_some (h : table.match? text = some entry) :
    entry ∈ table.entries ∧ entry.key <+: text := by
  rw [match?] at h
  split at h
  · cases h
  · have hstarts := List.find?_some h
    exact ⟨List.mem_of_find?_eq_some h, List.isPrefixOf_iff_prefix.mp hstarts⟩

theorem match?_eq_none_iff : table.match? text = none ↔
    text = [] ∨ ∀ entry ∈ table.entries, ¬entry.key <+: text := by
  rw [match?]
  cases text with
  | nil => simp
  | cons b rest => simp [List.isPrefixOf_iff_prefix]

theorem mem_ofEntries_iff : entry ∈ (ofEntries entries).entries ↔ entry.IsDefinedBy entries := by
  rw [ofEntries, longestFirst_eq, List.mem_insertionSort, mem_firstOfEachKey_iff]
  simp

theorem mem_keys_ofEntries_iff {key : Text} :
    key ∈ (ofEntries entries).entries.map (·.key) ↔ key ≠ [] ∧ key ∈ entries.map (·.key) := by
  rw [List.mem_map, List.mem_map, ← exists_isDefinedBy_iff]
  simp only [mem_ofEntries_iff]

theorem key_ne_nil_ofEntries (h : entry ∈ (ofEntries entries).entries) : entry.key ≠ [] :=
  (mem_ofEntries_iff.mp h).1

theorem nodup_ofEntries (entries : List EscapeRule) :
    ((ofEntries entries).entries.map (·.key)).Nodup := by
  rw [ofEntries, longestFirst_eq]
  exact ((List.perm_insertionSort _ _).map _).nodup_iff.mpr (nodup_firstOfEachKey [] entries)

theorem pairwise_ofEntries (entries : List EscapeRule) :
    (ofEntries entries).entries.Pairwise IsNotShorter := by
  rw [ofEntries, longestFirst_eq]
  exact List.pairwise_insertionSort _ _

theorem lookup?_ofEntries_eq_some_iff {key replacement : Text} :
    (ofEntries entries).lookup? key = some replacement ↔
      EscapeRule.IsDefinedBy entries ⟨key, replacement⟩ := by
  rw [lookup?, ← mem_ofEntries_iff, Option.map_eq_some_iff]
  constructor
  · rintro ⟨entry, hfound, rfl⟩
    rw [← key_eq_of_find? hfound]
    exact List.mem_of_find?_eq_some hfound
  · intro hmem
    cases hfound : (ofEntries entries).entries.find? (·.key == key) with
    | none => simpa using List.find?_eq_none.mp hfound _ hmem
    | some entry =>
        have hsame := (mem_ofEntries_iff.mp (List.mem_of_find?_eq_some hfound)).eq_of_key
          (mem_ofEntries_iff.mp hmem) (key_eq_of_find? hfound)
        exact ⟨entry, rfl, by rw [hsame]⟩

theorem lookup?_ofEntries_eq_none_iff {key : Text} :
    (ofEntries entries).lookup? key = none ↔ key = [] ∨ key ∉ entries.map (·.key) := by
  have hnone : (ofEntries entries).lookup? key = none ↔
      key ∉ (ofEntries entries).entries.map (·.key) := by simp [lookup?, List.find?_eq_none]
  rw [hnone, mem_keys_ofEntries_iff, not_and_or, not_ne_iff]

theorem match?_ofEntries_eq_none_iff : (ofEntries entries).match? text = none ↔
    ∀ key ∈ entries.map (·.key), key ≠ [] → ¬key <+: text := by
  rw [match?_eq_none_iff, or_iff_right_of_imp]
  · constructor
    · intro hnone key hkey hne
      obtain ⟨entry, hentry, rfl⟩ := List.mem_map.mp (mem_keys_ofEntries_iff.mpr ⟨hne, hkey⟩)
      exact hnone entry hentry
    · intro hnone entry hentry
      obtain ⟨hne, hkey⟩ := mem_keys_ofEntries_iff.mp (List.mem_map_of_mem hentry)
      exact hnone entry.key hkey hne
  · rintro rfl entry hentry hstarts
    exact key_ne_nil_ofEntries hentry (List.prefix_nil.mp hstarts)

theorem isLongestAt_of_match? (h : (ofEntries entries).match? text = some entry) :
    entry.IsLongestAt entries text := by
  obtain ⟨hentry, hstarts⟩ := match?_eq_some h
  rw [match?] at h
  split at h
  · cases h
  · obtain ⟨-, before, behind, hsplit, hbefore⟩ := List.find?_eq_some_iff_append.mp h
    have hsorted := pairwise_ofEntries entries
    refine ⟨mem_ofEntries_iff.mp hentry, hstarts, fun other hother hkey => ?_⟩
    rw [← mem_ofEntries_iff, hsplit, List.mem_append, List.mem_cons] at hother
    rw [hsplit] at hsorted
    rcases hother with hother | rfl | hother
    · simpa [List.isPrefixOf_iff_prefix.mpr hkey] using hbefore other hother
    · exact Nat.le_refl _
    · exact List.rel_of_pairwise_cons (List.pairwise_append.mp hsorted).2.1 hother

theorem match?_ofEntries_eq_some_iff :
    (ofEntries entries).match? text = some entry ↔ entry.IsLongestAt entries text := by
  refine ⟨isLongestAt_of_match?, fun h => ?_⟩
  cases hfound : (ofEntries entries).match? text with
  | none =>
      obtain ⟨hne, hmem⟩ :=
        mem_keys_ofEntries_iff.mp (List.mem_map_of_mem (mem_ofEntries_iff.mpr h.defined))
      exact absurd h.starts (match?_ofEntries_eq_none_iff.mp hfound entry.key hmem hne)
  | some found =>
      have hlongest := isLongestAt_of_match? hfound
      have hlength := Nat.le_antisymm (h.longest found hlongest.defined hlongest.starts)
        (hlongest.longest entry h.defined h.starts)
      -- Of one length only one text stands at the head of another one.
      have hkey : found.key = entry.key :=
        (List.prefix_of_prefix_length_le hlongest.starts h.starts hlength.le).eq_of_length hlength
      rw [hlongest.defined.eq_of_key h.defined hkey]

/--
A table has the keys of the list that it is made of, each of them once and with the replacement
that is listed first, and no empty key.  A lookup finds that replacement.  At each place of a
text the longest key that stands there is found, and nothing exactly if none does.  Both
stay the same if entries change places of which no two have the same key.
-/
theorem ofEntries_exact (entries : List EscapeRule) :
    let table := ofEntries entries
    ((table.entries.map (·.key)).Nodup ∧
      (∀ key, key ∈ table.entries.map (·.key) ↔ key ≠ [] ∧ key ∈ entries.map (·.key)) ∧
        ∀ entry, entry ∈ table.entries ↔ entry.IsDefinedBy entries) ∧
    (∀ key,
      (∀ replacement, table.lookup? key = some replacement ↔
        EscapeRule.IsDefinedBy entries ⟨key, replacement⟩) ∧
      (table.lookup? key = none ↔ key = [] ∨ key ∉ entries.map (·.key))) ∧
    (∀ (text : Text) (offset : Nat),
      (∀ entry, table.match? (text.drop offset) = some entry ↔
        entry.IsLongestAt entries (text.drop offset)) ∧
      (table.match? (text.drop offset) = none ↔
        ∀ key ∈ entries.map (·.key), key ≠ [] → ¬key <+: text.drop offset)) ∧
    ∀ others : List EscapeRule,
      (∀ key, others.filter (·.key == key) = entries.filter (·.key == key)) →
        (∀ key, (ofEntries others).lookup? key = table.lookup? key) ∧
          ∀ (text : Text) (offset : Nat),
            (ofEntries others).match? (text.drop offset) = table.match? (text.drop offset) := by
  intro table
  refine ⟨⟨nodup_ofEntries entries, fun _ => mem_keys_ofEntries_iff, fun _ => mem_ofEntries_iff⟩,
    fun key => ⟨fun _ => lookup?_ofEntries_eq_some_iff, lookup?_ofEntries_eq_none_iff⟩,
    fun text offset => ⟨fun _ => match?_ofEntries_eq_some_iff, match?_ofEntries_eq_none_iff⟩,
    fun others h => ⟨fun key => ?_, fun text offset => ?_⟩⟩
  · refine Option.ext fun replacement => ?_
    rw [lookup?_ofEntries_eq_some_iff, lookup?_ofEntries_eq_some_iff, isDefinedBy_congr h]
  · refine Option.ext fun entry => ?_
    rw [match?_ofEntries_eq_some_iff, match?_ofEntries_eq_some_iff, isLongestAt_congr h]

/-- Three hyphens are found whether the key of two of them is listed first or last. -/
theorem ofEntries_exact_reordered :
    let two : EscapeRule := ⟨"--", "b"⟩
    let one : EscapeRule := ⟨"-", "a"⟩
    (ofEntries [one, two, ⟨"", "c"⟩]).match? (List.drop 1 ("x---" : Text)) =
        (ofEntries [two, one, ⟨"", "c"⟩]).match? (List.drop 1 ("x---" : Text)) ∧
      two.IsLongestAt [two, one, ⟨"", "c"⟩] (List.drop 1 ("x---" : Text)) := by
  intro two one
  have h : ∀ key, [one, two, ⟨"", "c"⟩].filter (·.key == key) =
      [two, one, ⟨"", "c"⟩].filter (·.key == key) := by
    intro key
    by_cases hkey : two.key = key
    · subst hkey
      decide
    · simp [List.filter_cons, hkey]
  obtain ⟨-, -, hplaces, horder⟩ := ofEntries_exact [two, one, ⟨"", "c"⟩]
  exact ⟨(horder _ h).2 _ 1, ((hplaces _ 1).1 two).mp (by decide)⟩

end EscapeTable

end LatexIntegrity
