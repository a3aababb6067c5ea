import LatexIntegrity.Proofs.Balance.Delimiters

/-!
# Counting delimiters by name

The tally has one entry for each name, with the delimiters of that name and the place of
the last one.  It is ordered by the bytes of the names.
-/

namespace LatexIntegrity

theorem Text.isBefore_iff {first second : Text} :
    Text.isBefore first second = true ↔ first < second := by
  induction first generalizing second with
  | nil => cases second <;> simp [isBefore]
  | cons a rest ih =>
      cases second with
      | nil => simp [isBefore]
      | cons b other => simp [isBefore, List.cons_lt_cons_iff, ih]

namespace Balance

def Count.of? (delimiters : List Delimiter) : Option Count :=
  delimiters.getLast?.map fun last =>
    ⟨delimiters.countP (·.side == .opening), delimiters.countP (·.side == .closing),
      last.position⟩

theorem Count.of?_concat (delimiters : List Delimiter) (delimiter : Delimiter) :
    Count.of? (delimiters ++ [delimiter]) =
      some (((Count.of? delimiters).getD Count.none).add delimiter) := by
  cases hlast : delimiters.getLast? with
  | none =>
      obtain rfl := List.getLast?_eq_none_iff.mp hlast
      cases hside : delimiter.side <;> simp [of?, add, Count.none, hside]
  | some last =>
      cases hside : delimiter.side <;> simp [of?, add, hlast, hside, List.countP_append]

theorem Count.getD_of? {f : Nat → Nat → Nat} (hf : f 0 0 = 0) (delimiters : List Delimiter) :
    ((Count.of? delimiters).map fun count => f count.opened count.closed).getD 0 =
      f (delimiters.countP (·.side == .opening)) (delimiters.countP (·.side == .closing)) := by
  cases hlast : delimiters.getLast? with
  | none => simp [List.getLast?_eq_none_iff.mp hlast, of?, hf]
  | some last => simp [of?, hlast]

namespace Tally

variable {tally : Tally} {delimiter : Delimiter} {name : Text} {count : Count}

theorem lookup_cons_of_ne {other : Text} (h : name ≠ other) :
    List.lookup name ((other, count) :: tally) = List.lookup name tally := by
  simp [List.lookup_cons, beq_false_of_ne h]

def IsSorted (tally : Tally) : Prop :=
  tally.Pairwise fun first second => first.1 < second.1

theorem IsSorted.mem_iff (h : tally.IsSorted) :
    (name, count) ∈ tally ↔ tally.lookup name = some count := by
  induction tally with
  | nil => simp
  | cons entry rest ih =>
      obtain ⟨hfirst, hrest⟩ := List.pairwise_cons.mp h
      obtain ⟨first, found⟩ := entry
      by_cases hname : name = first
      · subst hname
        have hout : (name, count) ∉ rest := by
          intro hmem
          have hlt := hfirst _ hmem
          exact List.lt_irrefl _ hlt
        simp [hout, eq_comm]
      · simp [lookup_cons_of_ne hname, hname, ih hrest]

theorem lookup_eq_none (h : ∀ entry ∈ tally, name < entry.1) : tally.lookup name = none := by
  rw [List.lookup_eq_none_iff]
  intro entry hentry
  simp only [bne_iff_ne, ne_eq]
  rintro rfl
  exact List.lt_irrefl _ (h entry hentry)

theorem IsSorted.count_flatMap (h : tally.IsSorted) (f : Count → Nat) (name : Text) :
    (tally.flatMap fun entry => List.replicate (f entry.2) entry.1).count name =
      ((tally.lookup name).map f).getD 0 := by
  induction tally with
  | nil => rfl
  | cons entry rest ih =>
      obtain ⟨hfirst, hrest⟩ := List.pairwise_cons.mp h
      obtain ⟨first, count⟩ := entry
      rw [List.flatMap_cons, List.count_append, ih hrest, List.count_replicate]
      by_cases hname : name = first
      · subst hname
        simp [lookup_eq_none hfirst]
      · simp [lookup_cons_of_ne hname, Ne.symm hname]

theorem mem_names_add {entry : Text × Count} (h : entry ∈ tally.add delimiter) :
    entry.1 = delimiter.name ∨ ∃ other ∈ tally, other.1 = entry.1 := by
  induction tally with
  | nil =>
      rw [List.mem_singleton.mp h]
      exact .inl rfl
  | cons first rest ih =>
      rw [add] at h
      split at h
      · rcases List.mem_cons.mp h with rfl | h
        · exact .inr ⟨first, List.mem_cons_self, rfl⟩
        · exact .inr ⟨entry, List.mem_cons_of_mem _ h, rfl⟩
      · split at h
        · rcases List.mem_cons.mp h with rfl | h
          · exact .inl rfl
          · exact .inr ⟨entry, h, rfl⟩
        · rcases List.mem_cons.mp h with rfl | h
          · exact .inr ⟨first, List.mem_cons_self, rfl⟩
          · rcases ih h with hname | ⟨other, hother, hname⟩
            · exact .inl hname
            · exact .inr ⟨other, List.mem_cons_of_mem _ hother, hname⟩

theorem IsSorted.add (h : tally.IsSorted) : (tally.add delimiter).IsSorted := by
  induction tally with
  | nil => exact List.pairwise_singleton _ _
  | cons first rest ih =>
      obtain ⟨hfirst, hrest⟩ := List.pairwise_cons.mp h
      rw [Tally.add]
      split
      · exact List.pairwise_cons.mpr ⟨hfirst, hrest⟩
      · next hname =>
          split
          · next hbefore =>
              have hlt := Text.isBefore_iff.mp hbefore
              apply List.Pairwise.cons _ h
              intro other hother
              rcases List.mem_cons.mp hother with rfl | hother
              · exact hlt
              · exact List.lt_trans hlt (hfirst other hother)
          · next hbefore =>
              rw [Text.isBefore_iff] at hbefore
              apply List.Pairwise.cons _ (ih hrest)
              intro entry hentry
              rcases mem_names_add hentry with hentry | ⟨other, hother, hentry⟩
              · rw [hentry]
                by_contra hafter
                exact hname (List.le_antisymm hafter hbefore)
              · rw [← hentry]
                exact hfirst other hother

theorem IsSorted.lookup_add (h : tally.IsSorted) :
    (tally.add delimiter).lookup name =
      if name = delimiter.name then some (((tally.lookup name).getD Count.none).add delimiter)
      else tally.lookup name := by
  induction tally with
  | nil =>
      by_cases hname : name = delimiter.name
      · simp [Tally.add, hname]
      · simp [Tally.add, lookup_cons_of_ne hname, hname]
  | cons first rest ih =>
      obtain ⟨hfirst, hrest⟩ := List.pairwise_cons.mp h
      obtain ⟨other, count⟩ := first
      rw [Tally.add]
      split
      · next hother =>
          subst hother
          by_cases hname : name = delimiter.name
          · simp [hname]
          · simp [lookup_cons_of_ne hname, hname]
      · next hother =>
          split
          · next hbefore =>
              have hlt := Text.isBefore_iff.mp hbefore
              have hnone : List.lookup delimiter.name ((other, count) :: rest) = none := by
                apply lookup_eq_none
                intro entry hentry
                rcases List.mem_cons.mp hentry with rfl | hentry
                · exact hlt
                · exact List.lt_trans hlt (hfirst entry hentry)
              by_cases hname : name = delimiter.name
              · simp [hname, hnone]
              · simp [lookup_cons_of_ne hname, hname]
          · by_cases hname : name = other
            · subst hname
              simp [Ne.symm hother]
            · rw [lookup_cons_of_ne hname, lookup_cons_of_ne hname, ih hrest]

theorem ofDelimiters_concat (delimiters : List Delimiter) (delimiter : Delimiter) :
    ofDelimiters (delimiters ++ [delimiter]) = (ofDelimiters delimiters).add delimiter := by
  simp [ofDelimiters]

theorem isSorted_ofDelimiters (delimiters : List Delimiter) :
    (ofDelimiters delimiters).IsSorted := by
  induction delimiters using List.reverseRecOn with
  | nil => exact List.Pairwise.nil
  | append_singleton delimiters delimiter ih =>
      rw [ofDelimiters_concat]
      exact ih.add

theorem lookup_ofDelimiters (delimiters : List Delimiter) :
    (ofDelimiters delimiters).lookup name =
      Count.of? (delimiters.filter fun delimiter => delimiter.name == name) := by
  induction delimiters using List.reverseRecOn with
  | nil => rfl
  | append_singleton delimiters delimiter ih =>
      rw [ofDelimiters_concat, (isSorted_ofDelimiters delimiters).lookup_add, ih,
        List.filter_append]
      by_cases hname : name = delimiter.name
      · subst hname
        simp [Count.of?_concat]
      · simp [hname, Ne.symm hname]

theorem count_names {f : Nat → Nat → Nat} (hf : f 0 0 = 0) (delimiters : List Delimiter)
    (name : Text) :
    ((ofDelimiters delimiters).flatMap fun entry =>
        List.replicate (f entry.2.opened entry.2.closed) entry.1).count name =
      f ((delimiters.filter fun delimiter => delimiter.name == name).countP (·.side == .opening))
        ((delimiters.filter fun delimiter => delimiter.name == name).countP
          (·.side == .closing)) := by
  rw [← Count.getD_of? hf, ← lookup_ofDelimiters]
  exact (isSorted_ofDelimiters delimiters).count_flatMap
    (fun count => f count.opened count.closed) name

end Tally

/-! ## Issues -/

theorem pairwise_issues (delimiters : List Delimiter) :
    (issues delimiters).Pairwise fun first second => first.environment < second.environment := by
  unfold issues
  rw [List.pairwise_map]
  exact (Tally.isSorted_ofDelimiters delimiters).filter _

theorem mem_issues {delimiters : List Delimiter} {issue : Issue} :
    issue ∈ issues delimiters ↔
      ∃ name count,
        Count.of? (delimiters.filter fun delimiter => delimiter.name == name) = some count ∧
          count.opened ≠ count.closed ∧
            issue = .imbalance name count.opened count.closed count.last := by
  simp only [issues, List.mem_map, List.mem_filter, Prod.exists,
    (Tally.isSorted_ofDelimiters delimiters).mem_iff, Tally.lookup_ofDelimiters, Count.isBalanced,
    Bool.not_eq_true', beq_eq_false_iff_ne, and_assoc, eq_comm (a := issue)]

def tokenOffsets (text : Text) (token : DelimiterToken) : List Nat :=
  (List.range text.length).filter fun offset =>
    isCountedAt text offset && delimiterAt? text offset == some ⟨token, offset⟩

theorem tokenOffsets_eq (text : Text) (token : DelimiterToken) :
    tokenOffsets text token =
      ((delimiters text (segment text)).filter fun delimiter =>
        delimiter.toDelimiterToken == token).map (·.position) := by
  unfold tokenOffsets
  rw [delimiters_segment, List.filter_filterMap, List.map_filterMap, List.filterMap_filter,
    ← List.filterMap_eq_filter]
  apply List.filterMap_congr
  intro offset _
  cases hcounted : isCountedAt text offset with
  | false => simp [Option.guard, hcounted]
  | true =>
      cases hread : delimiterAt? text offset with
      | none => simp [Option.guard, hread]
      | some delimiter =>
          obtain ⟨rfl, -, -⟩ := delimiterAt?_eq_some_iff.mp hread
          by_cases htoken : delimiter.toDelimiterToken = token
          · subst htoken
            simp [Option.guard, Option.filter, hcounted, hread]
          · have hne : delimiter ≠ ⟨token, delimiter.position⟩ := by
              intro heq
              exact htoken (congrArg Delimiter.toDelimiterToken heq)
            simp [Option.guard, Option.filter, hread, htoken, hne]

theorem length_tokenOffsets (text : Text) (side : DelimiterSide) (name : Text) :
    (tokenOffsets text ⟨side, name⟩).length =
      ((delimiters text (segment text)).filter fun delimiter => delimiter.name == name).countP
        (·.side == side) := by
  rw [tokenOffsets_eq, List.length_map, List.countP_filter, List.countP_eq_length_filter]
  congr 2
  funext ⟨⟨otherSide, other⟩, position⟩
  rw [Bool.eq_iff_iff]
  simp

theorem mem_tokenOffsets_append (text name : Text) (offset : Nat) :
    offset ∈ tokenOffsets text ⟨.opening, name⟩ ++ tokenOffsets text ⟨.closing, name⟩ ↔
      ∃ delimiter ∈ (delimiters text (segment text)).filter fun delimiter =>
        delimiter.name == name, delimiter.position = offset := by
  simp only [List.mem_append, tokenOffsets_eq, List.mem_map, List.mem_filter, beq_iff_eq,
    ← exists_or]
  apply exists_congr
  intro ⟨⟨side, other⟩, position⟩
  cases side <;> simp

theorem max?_tokenOffsets (text name : Text) :
    (tokenOffsets text ⟨.opening, name⟩ ++ tokenOffsets text ⟨.closing, name⟩).max? =
      ((delimiters text (segment text)).filter fun delimiter =>
        delimiter.name == name).getLast?.map (·.position) := by
  have hmem := mem_tokenOffsets_append text name
  have hsorted := (pairwise_delimiters_segment text).filter fun delimiter =>
    delimiter.name == name
  generalize (delimiters text (segment text)).filter (fun delimiter => delimiter.name == name) =
    named at hmem hsorted
  induction named using List.reverseRecOn with
  | nil => simp [List.eq_nil_iff_forall_not_mem, hmem]
  | append_singleton named last _ =>
      obtain ⟨-, -, hlast⟩ := List.pairwise_append.mp hsorted
      simp only [List.getLast?_concat, Option.map_some, List.max?_eq_some_iff, hmem]
      constructor
      · exact ⟨last, by simp, rfl⟩
      · rintro offset ⟨delimiter, hdelimiter, rfl⟩
        rcases List.mem_append.mp hdelimiter with hdelimiter | hdelimiter
        · have hlt := hlast delimiter hdelimiter last (by simp)
          omega
        · simp [List.mem_singleton.mp hdelimiter]

theorem balanceIssues_eq_nil_iff {text : Text} :
    balanceIssues text = [] ↔ ∀ name, (tokenOffsets text ⟨.opening, name⟩).length =
      (tokenOffsets text ⟨.closing, name⟩).length := by
  simp only [balanceIssues, List.eq_nil_iff_forall_not_mem, mem_issues, length_tokenOffsets]
  constructor
  · intro h name
    by_contra hne
    generalize hnamed : (delimiters text (segment text)).filter
      (fun delimiter => delimiter.name == name) = named at hne
    cases hlast : named.getLast? with
    | none => simp [List.getLast?_eq_none_iff.mp hlast] at hne
    | some last => exact h _ ⟨name, _, by rw [hnamed, Count.of?, hlast]; rfl, hne, rfl⟩
  · rintro h issue ⟨name, count, hcount, hne, -⟩
    obtain ⟨last, -, rfl⟩ := Option.map_eq_some_iff.mp hcount
    exact hne (h name)

/--
The delimiters of a text are those that are read outside comments and definitions, each
of them once and in order.  The issues name the environments that are opened and closed a
different number of times, in the order of their names.
-/
theorem balance_exact (text : Text) :
    ((delimiters text (segment text)).Pairwise fun first second =>
      first.position < second.position) ∧
    (∀ delimiter, delimiter ∈ delimiters text (segment text) ↔
      delimiterAt? text delimiter.position = some delimiter ∧
        isCountedAt text delimiter.position = true) ∧
    ((balanceIssues text).Pairwise fun first second =>
      first.environment < second.environment) ∧
    ∀ issue, issue ∈ balanceIssues text ↔
      ∃ name last,
        (tokenOffsets text ⟨.opening, name⟩).length ≠
            (tokenOffsets text ⟨.closing, name⟩).length ∧
          (tokenOffsets text ⟨.opening, name⟩ ++ tokenOffsets text ⟨.closing, name⟩).max? =
              some last ∧
            issue = .imbalance name (tokenOffsets text ⟨.opening, name⟩).length
              (tokenOffsets text ⟨.closing, name⟩).length last := by
  refine ⟨pairwise_delimiters_segment text, fun delimiter => mem_delimiters_segment,
    pairwise_issues _, ?_⟩
  intro issue
  simp only [balanceIssues, mem_issues, length_tokenOffsets, max?_tokenOffsets, Count.of?,
    Option.map_eq_some_iff]
  constructor
  · rintro ⟨name, count, ⟨last, hlast, rfl⟩, hcounts, rfl⟩
    exact ⟨name, last.position, hcounts, ⟨last, hlast, rfl⟩, rfl⟩
  · rintro ⟨name, last, hcounts, ⟨delimiter, hlast, rfl⟩, rfl⟩
    exact ⟨name, _, ⟨delimiter, hlast, rfl⟩, hcounts, rfl⟩

end Balance

end LatexIntegrity
