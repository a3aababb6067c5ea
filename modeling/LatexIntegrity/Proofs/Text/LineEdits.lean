import LatexIntegrity.Proofs.Text.Lines

/-!
# Changing lines

Lines can be made of bytes or of bytes with more about each of them.  Changing the lines that
begin at some offsets, the last one first, changes these lines in the list of all lines.
-/

namespace LatexIntegrity.Text

variable {α : Type} (isFeed : α → Bool)

def firstLine (items : List α) : List α := items.takeWhile (!isFeed ·)

def behindFirstLine (items : List α) : List α := items.dropWhile (!isFeed ·)

/-- The items with another line in place of the one that begins at an offset. -/
def changeLine (change : List α → List α) (start : Nat) (items : List α) : List α :=
  items.take start ++
    (change (firstLine isFeed (items.drop start)) ++ behindFirstLine isFeed (items.drop start))

def BeginsLine (items : List α) (offset : Nat) : Prop :=
  offset ≤ items.length ∧ ∀ a, (items.take offset).getLast? = some a → isFeed a = true

variable {isFeed} {items other : List α} {start limit : Nat} {starts : List Nat}
  {change : List α → List α}

theorem firstLine_append_behind (isFeed : α → Bool) (items : List α) :
    firstLine isFeed items ++ behindFirstLine isFeed items = items :=
  List.takeWhile_append_dropWhile

theorem isFeed_of_mem_firstLine {a : α} (h : a ∈ firstLine isFeed items) : isFeed a = false := by
  have ha := List.all_eq_true.mp List.all_takeWhile a h
  simpa using ha

theorem isFeed_of_behindFirstLine {a : α} (h : (behindFirstLine isFeed items).head? = some a) :
    isFeed a = true := by
  have hnot := List.head?_dropWhile_not (!isFeed ·) items
  rw [behindFirstLine] at h
  rw [h] at hnot
  simpa using hnot

theorem firstLine_append {line : List α} (hline : ∀ a ∈ line, isFeed a = false) {feed : α}
    (hfeed : isFeed feed = true) (rest : List α) :
    firstLine isFeed (line ++ feed :: rest) = line := by
  rw [firstLine, List.takeWhile_append_of_pos (by simpa using hline),
    List.takeWhile_cons_of_neg (by simp [hfeed]), List.append_nil]

theorem behindFirstLine_append {line : List α} (hline : ∀ a ∈ line, isFeed a = false) {feed : α}
    (hfeed : isFeed feed = true) (rest : List α) :
    behindFirstLine isFeed (line ++ feed :: rest) = feed :: rest := by
  rw [behindFirstLine, List.dropWhile_append_of_pos (by simpa using hline),
    List.dropWhile_cons_of_neg (by simp [hfeed])]

theorem exists_line_feed (h : ∃ feed ∈ items, isFeed feed = true) :
    ∃ line feed rest, (∀ a ∈ line, isFeed a = false) ∧ isFeed feed = true ∧
      items = line ++ feed :: rest := by
  obtain ⟨feed, hmem, hfeed⟩ := h
  rw [← firstLine_append_behind isFeed items, List.mem_append] at hmem
  have hbehind : feed ∈ behindFirstLine isFeed items := by
    refine hmem.resolve_left fun hline => ?_
    rw [isFeed_of_mem_firstLine hline] at hfeed
    cases hfeed
  obtain ⟨first, rest, hfirst⟩ := List.exists_cons_of_ne_nil (List.ne_nil_of_mem hbehind)
  refine ⟨firstLine isFeed items, first, rest, fun _ => isFeed_of_mem_firstLine,
    isFeed_of_behindFirstLine (by rw [hfirst]; rfl), ?_⟩
  rw [← hfirst, firstLine_append_behind]

theorem forall₂_mapIdx {r : α → α → Prop} {change : Nat → α → α}
    (h : ∀ index a, items[index]? = some a → r a (change index a)) :
    List.Forall₂ r items (items.mapIdx change) := by
  induction items generalizing change with
  | nil => exact .nil
  | cons a items ih =>
      rw [List.mapIdx_cons]
      exact .cons (h 0 a rfl) (ih fun index b hb => h (index + 1) b hb)

theorem induction_lines (isFeed : α → Bool) {motive : List α → Prop}
    (last : ∀ line, (∀ a ∈ line, isFeed a = false) → motive line)
    (line : ∀ line feed rest, (∀ a ∈ line, isFeed a = false) → isFeed feed = true →
      motive rest → motive (line ++ feed :: rest)) (items : List α) : motive items := by
  induction hn : items.length using Nat.strongRecOn generalizing items with
  | ind n ih =>
      subst hn
      by_cases h : ∃ feed ∈ items, isFeed feed = true
      · obtain ⟨first, feed, rest, hfirst, hfeed, rfl⟩ := exists_line_feed h
        refine line first feed rest hfirst hfeed (ih _ ?_ rest rfl)
        rw [List.length_append, List.length_cons]
        omega
      · exact last items fun a ha => Bool.eq_false_iff.mpr fun hfeed => h ⟨a, ha, hfeed⟩

theorem splitOnP_line_append {line : List α} (hline : ∀ a ∈ line, isFeed a = false) {feed : α}
    (hfeed : isFeed feed = true) (rest : List α) :
    (line ++ feed :: rest).splitOnP isFeed = line :: rest.splitOnP isFeed := by
  rw [List.splitOnP_append_cons _ _ hfeed, List.splitOnP_eq_singleton hline, List.singleton_append]

theorem isUnbroken_iff {text : Text} :
    text.IsUnbroken ↔ ∀ b ∈ text, (b == ('\n' : UInt8)) = false :=
  ⟨fun h _ hb => beq_false_of_ne (ne_of_mem_of_not_mem hb h), fun h hmem => by
    simpa using h _ hmem⟩

theorem IsLineStart.beginsLine {text : Text} {offset : Nat} (h : IsLineStart text offset) :
    BeginsLine (· == ('\n' : UInt8)) text offset :=
  ⟨h.1, fun b hb => beq_iff_eq.mpr (h.2 b hb)⟩

namespace BeginsLine

theorem isLineBetween (h : BeginsLine isFeed items start) :
    IsLineBetween isFeed (items.take start) (firstLine isFeed (items.drop start))
      (behindFirstLine isFeed (items.drop start)) :=
  ⟨h.2, fun _ => isFeed_of_mem_firstLine, fun _ => isFeed_of_behindFirstLine⟩

theorem exists_feed (h : BeginsLine isFeed items limit) (hlt : start < limit) :
    ∃ feed ∈ (items.take limit).drop start, isFeed feed = true := by
  have hlength : ((items.take limit).drop start).length = limit - start := by
    rw [List.length_drop, List.length_take_of_le h.1]
  have hne : (items.take limit).drop start ≠ [] := by
    intro hnil
    rw [hnil, List.length_nil] at hlength
    omega
  refine ⟨_, List.getLast_mem hne, h.2 _ ?_⟩
  rw [List.getLast_drop, List.getLast?_eq_some_getLast]

theorem countP_lt (h : BeginsLine isFeed items limit) (hlt : start < limit) :
    (items.take start).countP isFeed < (items.take limit).countP isFeed := by
  have hpos : 0 < ((items.take limit).drop start).countP isFeed :=
    List.countP_pos_iff.mpr (h.exists_feed hlt)
  rw [← List.take_append_drop start (items.take limit), List.countP_append, List.take_take,
    Nat.min_eq_left (Nat.le_of_lt hlt)]
  omega

theorem of_take_eq (h : BeginsLine isFeed items limit)
    (htake : other.take limit = items.take limit) : BeginsLine isFeed other limit := by
  have hlength := congrArg List.length htake
  rw [List.length_take, List.length_take_of_le h.1] at hlength
  exact ⟨by omega, by rw [htake]; exact h.2⟩

theorem firstLine_congr (h : BeginsLine isFeed items limit) (hlt : start < limit)
    (htake : other.take limit = items.take limit) :
    firstLine isFeed (other.drop start) = firstLine isFeed (items.drop start) ∧
      (behindFirstLine isFeed (other.drop start)).head? =
        (behindFirstLine isFeed (items.drop start)).head? := by
  obtain ⟨line, feed, rest, hline, hfeed, hsplit⟩ := exists_line_feed (h.exists_feed hlt)
  have hwhole : ∀ {whole : List α}, whole.take limit = items.take limit →
      whole.drop start = line ++ feed :: (rest ++ whole.drop limit) := by
    intro whole hwhole
    have hfit := (h.of_take_eq hwhole).1
    have hle : start ≤ (whole.take limit).length := by
      rw [List.length_take_of_le hfit]
      exact Nat.le_of_lt hlt
    rw [← List.take_append_drop limit whole, List.drop_append_of_le_length hle, hwhole, hsplit,
      List.append_assoc, List.cons_append, ← hwhole, List.take_append_drop]
  rw [hwhole htake, hwhole rfl, firstLine_append hline hfeed, firstLine_append hline hfeed,
    behindFirstLine_append hline hfeed, behindFirstLine_append hline hfeed]
  exact ⟨rfl, rfl⟩

end BeginsLine

/-! ## Changing lines -/

section

variable (hchange : ∀ line, (∀ a ∈ line, isFeed a = false) → ∀ a ∈ change line, isFeed a = false)

theorem take_foldr_changeLine (hlimit : limit ≤ items.length)
    (h : ∀ start ∈ starts, limit ≤ start) :
    (starts.foldr (changeLine isFeed change) items).take limit = items.take limit := by
  induction starts with
  | nil => rfl
  | cons start starts ih =>
      obtain ⟨hstart, hstarts⟩ := List.forall_mem_cons.mp h
      have htake := ih hstarts
      have hfit := congrArg List.length htake
      rw [List.length_take, List.length_take_of_le hlimit] at hfit
      rw [List.foldr_cons, changeLine,
        List.take_append_of_le_length (by rw [List.length_take]; omega), List.take_take,
        Nat.min_eq_left hstart, htake]

include hchange

/-- Changing the lines that begin at some offsets changes the lines with these numbers. -/
theorem splitOnP_foldr_changeLine (hsorted : starts.Pairwise (· < ·))
    (hstarts : ∀ start ∈ starts, BeginsLine isFeed items start) :
    (starts.foldr (changeLine isFeed change) items).splitOnP isFeed =
      (items.splitOnP isFeed).mapIdx fun number line =>
        if number ∈ starts.map (fun start => (items.take start).countP isFeed) then change line
        else line := by
  have hnumbers : (starts.map fun start => (items.take start).countP isFeed).Nodup := by
    refine List.Pairwise.imp Nat.ne_of_lt (List.pairwise_map.mpr ?_)
    exact hsorted.imp_of_mem fun _ hother hlt => (hstarts _ hother).countP_lt hlt
  rw [← foldr_modify_eq_mapIdx _ hnumbers]
  clear hnumbers
  induction starts with
  | nil => rfl
  | cons start starts ih =>
      obtain ⟨hnext, hsorted⟩ := List.pairwise_cons.mp hsorted
      obtain ⟨hstart, hstarts⟩ := List.forall_mem_cons.mp hstarts
      have htake := @take_foldr_changeLine _ isFeed items start starts change hstart.1
        fun other hother => Nat.le_of_lt (hnext other hother)
      have hline := (hstart.of_take_eq htake).isLineBetween
      have hmodify := hline.splitOnP_modify (hchange _ hline.inside)
      rw [firstLine_append_behind, List.take_append_drop, htake] at hmodify
      rw [List.foldr_cons, changeLine, htake, hmodify, ih hsorted hstarts]
      rfl

end

end LatexIntegrity.Text
