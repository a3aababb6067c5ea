import LatexIntegrity.Proofs.Balance.Tally
import LatexIntegrity.Proofs.Markup.Tokens

/-!
# Delimiters that do not count

The delimiters of a text are those that count and those that stand in comments and
definitions.
-/

namespace LatexIntegrity

theorem tokensFrom_eq_filterMap (before rest : Text) :
    tokensFrom (.after before) rest =
      (List.Ico before.length (before ++ rest).length).filterMap fun offset =>
        (delimiterAt? (before ++ rest) offset).map (·.toDelimiterToken) := by
  induction rest generalizing before with
  | nil => simp [tokensFrom]
  | cons b rest ih =>
      have hrest := ih (before ++ [b])
      rw [List.append_assoc, List.singleton_append, List.length_append, List.length_singleton]
        at hrest
      have hhere : delimiterAt? (before ++ b :: rest) before.length =
          Delimiter.read? (.after before) before.length (b :: rest) := by
        simp [delimiterAt?]
      have hlt : before.length < (before ++ b :: rest).length := by simp
      rw [List.Ico.eq_cons hlt, List.filterMap_cons, hhere, tokensFrom,
        ← LeftContext.after_concat, hrest]
      unfold headToken? Delimiter.read?
      cases (LeftContext.after before).escaped with
      | true => rfl
      | false => cases DelimiterToken.read? (b :: rest) <;> rfl

namespace Balance

/-- The offsets at which a token is read in a comment or a definition. -/
def hiddenOffsets (text : Text) (token : DelimiterToken) : List Nat :=
  (List.range text.length).filter fun offset =>
    !isCountedAt text offset && delimiterAt? text offset == some ⟨token, offset⟩

/-- How many more openers than closers of a name are hidden. -/
def hiddenSurplus (text name : Text) : Int :=
  (hiddenOffsets text ⟨.opening, name⟩).length - (hiddenOffsets text ⟨.closing, name⟩).length

theorem count_tokensFrom (text : Text) (token : DelimiterToken) :
    (tokensFrom .initial text).count token =
      (tokenOffsets text token).length + (hiddenOffsets text token).length := by
  have htokens := tokensFrom_eq_filterMap [] text
  rw [List.nil_append, List.length_nil, List.Ico.zero_bot] at htokens
  have hread : ∀ offset, ((delimiterAt? text offset).map (·.toDelimiterToken) == some token) =
      (delimiterAt? text offset == some ⟨token, offset⟩) := by
    intro offset
    cases hdelimiter : delimiterAt? text offset with
    | none => rfl
    | some delimiter =>
        obtain ⟨rfl, -⟩ := delimiterAt?_eq_some_iff.mp hdelimiter
        obtain ⟨found, position⟩ := delimiter
        rw [Bool.eq_iff_iff]
        simp
  rw [LeftContext.after] at htokens
  rw [← LeftContext.pushAll_nil .initial, htokens, List.count_filterMap]
  simp only [hread, tokenOffsets, hiddenOffsets]
  rw [List.countP_eq_countP_filter_add _ _ (isCountedAt text), List.countP_filter,
    List.countP_filter, List.countP_eq_length_filter, List.countP_eq_length_filter]
  simp only [Bool.and_comm]

end Balance

end LatexIntegrity
