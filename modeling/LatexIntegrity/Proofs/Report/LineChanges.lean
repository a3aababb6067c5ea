import LatexIntegrity.Command.Document
import LatexIntegrity.Proofs.Sanitize.Lines

/-!
# The count of changed lines

The preview of `clean` compares a document with what becomes of it, line by line.  A line
feed at the end of a text begins no line for it.  Sanitization brings no lines and takes
none, but it may empty the last line of a document that has no line feed at its end, and
this one change is not counted.
-/

namespace LatexIntegrity

namespace LineChange

/-- In how many lines two texts differ, where what is behind the last line feed is a line. -/
def differing (before after : Text) : Nat :=
  ((Text.lines before).zip (Text.lines after)).countP fun lines => lines.1 != lines.2

def LosesLastLine (before after : Text) : Prop :=
  (Text.lines before).getLast? ≠ some [] ∧ (Text.lines after).getLast? = some []

instance (before after : Text) : Decidable (LosesLastLine before after) :=
  inferInstanceAs (Decidable (_ ∧ _))

variable {before after : Text}

theorem length_between (number : Nat) (before after : List Text) :
    (between number before after).length =
      (before.zip after).countP fun lines => lines.1 != lines.2 := by
  induction before generalizing number after with
  | nil => rfl
  | cons first before ih =>
      cases after with
      | nil => rfl
      | cons second after =>
          by_cases hsame : first = second
          · simp [between, hsame, ih]
          · simp [between, hsame, ih]

theorem exists_lines_eq_concat (text : Text) : ∃ lines last, Text.lines text = lines ++ [last] :=
  ⟨_, _, (List.dropLast_append_getLast (Text.lines_ne_nil text)).symm⟩

theorem completeLines_of_concat {text last : Text} {lines : List Text}
    (h : Text.lines text = lines ++ [last]) :
    Text.completeLines text = if last = [] then lines else lines ++ [last] := by
  simp [Text.completeLines, h]

theorem differing_eq_zero_iff (h : (Text.lines after).length = (Text.lines before).length) :
    differing before after = 0 ↔ after = before := by
  rw [← Text.lines_injective.eq_iff, differing]
  generalize Text.lines before = first at h ⊢
  generalize Text.lines after = second at h ⊢
  induction first generalizing second with
  | nil => simp [List.length_eq_zero_iff.mp h]
  | cons line first ih =>
      obtain ⟨line', second, rfl⟩ := List.exists_cons_of_length_eq_add_one h
      have hrest := ih second (by simpa using h)
      by_cases hsame : line' = line
      · simp [hsame, hrest]
      · simp [hsame, Ne.symm hsame]

theorem exists_last_lines {relates : Text → Text → Prop} (h : MatchesLines relates before after) :
    ∃ first last second last', Text.lines before = first ++ [last] ∧
      Text.lines after = second ++ [last'] ∧ first.length = second.length ∧ relates last last' := by
  obtain ⟨first, last, hbefore⟩ := exists_lines_eq_concat before
  obtain ⟨second, last', hafter⟩ := exists_lines_eq_concat after
  have hlength : first.length = second.length := by simpa [hbefore, hafter] using h.length_eq
  have hdrop := List.forall₂_drop_append (Text.lines before) second [last'] (by rwa [← hafter])
  rw [hbefore, ← hlength, List.drop_left] at hdrop
  exact ⟨first, last, second, last', hbefore, hafter, hlength, (List.forall₂_cons.mp hdrop).1⟩

theorem length_list (h : MatchesLines EmptiesZeroWidth before after) :
    (¬LosesLastLine before after → (list before after).length = differing before after) ∧
      (LosesLastLine before after → (list before after).length + 1 = differing before after) := by
  obtain ⟨first, last, second, last', hbefore, hafter, hlength, hlast⟩ := exists_last_lines h
  have hdiffering : differing before after =
      (first.zip second).countP (fun lines => lines.1 != lines.2) +
        if last = last' then 0 else 1 := by
    rw [differing, hbefore, hafter, List.zip_append hlength, List.countP_append]
    by_cases hsame : last = last' <;> simp [hsame]
  rw [list, length_between, completeLines_of_concat hbefore, completeLines_of_concat hafter,
    hdiffering, LosesLastLine, hbefore, hafter]
  -- Either list of complete lines leaves its last line out if that line is empty.
  by_cases hempty : last = []
  · simp [hempty, hlast.1 hempty]
  · by_cases hempty' : last' = []
    · have hzip : (first ++ [last]).zip (second ++ []) = first.zip second ++ [last].zip [] :=
        List.zip_append hlength
      rw [List.append_nil, List.zip_nil_right, List.append_nil] at hzip
      simp [hempty, hempty', hzip]
    · by_cases hsame : last = last'
      · simp [hempty', hsame, List.zip_append hlength, List.countP_append]
      · simp [hempty, hempty', hsame, List.zip_append hlength, List.countP_append]

theorem isZeroWidth_of_losesLastLine (h : MatchesLines EmptiesZeroWidth before after)
    (hloses : LosesLastLine before after) :
    ∃ last, (Text.lines before).getLast? = some last ∧ last ≠ [] ∧ IsZeroWidth last := by
  obtain ⟨first, last, second, last', hbefore, hafter, -, hlast⟩ := exists_last_lines h
  rw [LosesLastLine, hbefore, hafter, List.getLast?_concat, List.getLast?_concat] at hloses
  obtain ⟨hne, hempty⟩ := hloses
  refine ⟨last, by rw [hbefore, List.getLast?_concat], by simpa using hne, ?_⟩
  exact hlast.2 (Option.some.inj hempty)

theorem not_losesLastLine (h : MatchesLines WritesLine before after) :
    ¬LosesLastLine before after := by
  obtain ⟨first, last, second, last', hbefore, hafter, -, -, hlast⟩ := exists_last_lines h
  rw [LosesLastLine, hbefore, hafter, List.getLast?_concat, List.getLast?_concat]
  rintro ⟨hne, hempty⟩
  rcases hlast with hsame | ⟨b, hb, -⟩
  · exact hne (hsame ▸ hempty)
  · rw [Option.some.inj hempty] at hb
    exact List.not_mem_nil hb

end LineChange

namespace Command

open LineChange

/--
The preview of `clean` ends with the number of lines that sanitization changes, and this
number is zero exactly if sanitization changes nothing.  There is one exception: if the
text ends in a line of zero-width spaces that has no line feed, then all of this line is
deleted, and it is not counted.
-/
theorem clean_countsChangedLines {m : Type → Type} [Monad m] (disk : Disk m)
    (options : CleanOptions) (text : Text) :
    let cleaned := sanitize .standard options.scope text
    ∃ shown count,
      cleanDocument disk { options with preview := true } text =
          pure { out := shown ++ "\nTotal lines changed: " ++ Decimal.render count ++ "\n" } ∧
        (Text.lines cleaned).length = (Text.lines text).length ∧
        (¬LosesLastLine text cleaned →
          count = differing text cleaned ∧ (count = 0 ↔ cleaned = text)) ∧
        (LosesLastLine text cleaned →
          count + 1 = differing text cleaned ∧ options.scope = .full ∧
            ∃ last, (Text.lines text).getLast? = some last ∧ last ≠ [] ∧ IsZeroWidth last) := by
  intro cleaned
  have hlines := matchesLines_sanitize options.scope text
  obtain ⟨hcounted, hlost⟩ := length_list hlines
  refine ⟨_, (LineChange.list text cleaned).length, rfl, hlines.length_eq.symm,
    fun hkept => ?_, fun hloses => ?_⟩
  · rw [hcounted hkept]
    exact ⟨rfl, differing_eq_zero_iff hlines.length_eq.symm⟩
  · refine ⟨hlost hloses, ?_, isZeroWidth_of_losesLastLine hlines hloses⟩
    cases hscope : options.scope with
    | full => rfl
    | onlyTables =>
        simp only [cleaned, hscope] at hloses
        exact absurd hloses (not_losesLastLine (matchesLines_sanitize_onlyTables text))

example :
    LosesLastLine "a\n\u200b" (sanitize .standard .full "a\n\u200b") ∧
      LineChange.list "a\n\u200b" (sanitize .standard .full "a\n\u200b") = [] := by
  decide +kernel

end Command

end LatexIntegrity
