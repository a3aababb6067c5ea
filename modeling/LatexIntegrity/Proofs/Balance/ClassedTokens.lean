import LatexIntegrity.Proofs.Balance.Hidden
import LatexIntegrity.Proofs.Region.Classes
import LatexIntegrity.Proofs.Text.LineEdits

/-!
# Delimiters among bytes with classes

The delimiters of a document that count are read off its bytes and their classes.  Since no
delimiter reaches over the end of a line, they are read line by line.
-/

namespace LatexIntegrity

def ByteClass.isCounted (byteClass : ByteClass) : Bool :=
  byteClass.kind != .comment && byteClass.kind != .definition

namespace ClassedText

def countedToken? (context : LeftContext) (items : ClassedText) : Option DelimiterToken :=
  if items.head?.any (·.2.isCounted) then headToken? context items.bytes else none

def countedTokensFrom : LeftContext → ClassedText → List DelimiterToken
  | _, [] => []
  | context, item :: rest =>
      (countedToken? context (item :: rest)).toList ++ countedTokensFrom (context.push item.1) rest

theorem countedTokensFrom_sublist (context : LeftContext) (items : ClassedText) :
    (countedTokensFrom context items).Sublist (tokensFrom context items.bytes) := by
  induction items generalizing context with
  | nil => exact List.Sublist.refl _
  | cons item rest ih =>
      refine List.Sublist.append ?_ (ih _)
      rw [countedToken?]
      split
      · exact List.Sublist.refl _
      · exact List.nil_sublist _

/-- The scan of the bytes with their classes agrees with a test of every offset. -/
theorem countedTokensFrom_eq_filterMap (first rest : ClassedText) :
    countedTokensFrom (.after first.bytes) rest =
      (List.Ico first.length (first ++ rest).length).filterMap fun offset =>
        if (first ++ rest)[offset]?.any (·.2.isCounted) then
          (delimiterAt? (bytes (first ++ rest)) offset).map (·.toDelimiterToken)
        else none := by
  induction rest generalizing first with
  | nil => simp [countedTokensFrom]
  | cons item rest ih =>
      have hrest := ih (first ++ [item])
      have hpush : (LeftContext.after first.bytes).push item.1 =
          .after (bytes (first ++ [item])) := by
        rw [bytes, bytes, List.map_append, List.map_singleton, LeftContext.after_concat]
      have hlength : first.length = (bytes first).length := (List.length_map _).symm
      have hhere : delimiterAt? (bytes (first ++ item :: rest)) first.length =
          Delimiter.read? (.after first.bytes) first.length (bytes (item :: rest)) := by
        rw [delimiterAt?, bytes, List.map_append, ← bytes, ← bytes, hlength, List.take_left,
          List.drop_left]
      rw [List.append_assoc, List.singleton_append, List.length_append, List.length_singleton]
        at hrest
      have hlt : first.length < (first ++ item :: rest).length := by simp
      have hitem : (first ++ item :: rest)[first.length]? = some item := by simp
      rw [List.Ico.eq_cons hlt, List.filterMap_cons, hhere, hitem, countedTokensFrom,
        hpush, hrest, countedToken?, List.head?_cons]
      unfold headToken? Delimiter.read?
      simp only [Option.any_some]
      split
      · cases (LeftContext.after first.bytes).escaped with
        | true => rfl
        | false => cases DelimiterToken.read? (bytes (item :: rest)) <;> rfl
      · rfl

/-! ## Line by line -/

variable {feed : UInt8 × ByteClass}

theorem countedTokensFrom_append {before after : ClassedText}
    (h : IsSevered before.bytes after.bytes) (context : LeftContext) :
    countedTokensFrom context (before ++ after) =
      countedTokensFrom context before ++
        countedTokensFrom (context.pushAll before.bytes) after := by
  induction before generalizing context with
  | nil => rfl
  | cons item rest ih =>
      have hhead := headToken?_append h (List.cons_ne_nil _ _) context
      have hrest : IsSevered (bytes rest) after.bytes := IsSevered.suffix [item.1] h
      rw [bytes, bytes, ← List.map_append, ← bytes, ← bytes] at hhead
      rw [List.cons_append, countedTokensFrom, countedTokensFrom, ih hrest, List.append_assoc,
        countedToken?, countedToken?, ← List.cons_append, hhead]
      rfl

theorem countedTokensFrom_line (context : LeftContext) (line : ClassedText)
    (hfeed : isFeed feed = true) (rest : ClassedText) :
    countedTokensFrom context (line ++ feed :: rest) =
      countedTokensFrom context line ++ countedTokensFrom .initial rest := by
  obtain ⟨b, byteClass⟩ := feed
  obtain rfl : b = ('\n' : UInt8) := beq_iff_eq.mp hfeed
  have hnone : ∀ other, countedToken? other (('\n', byteClass) :: rest) = none := by
    intro other
    refine Option.eq_none_iff_forall_ne_some.mpr fun token htoken => ?_
    rw [countedToken?, Option.ite_none_right_eq_some] at htoken
    obtain ⟨-, -, behind, hbehind⟩ := headToken?_eq_some_iff.mp htoken.2
    rw [DelimiterToken.source_eq, List.cons_append] at hbehind
    have hbackslash : ('\\' : UInt8) = '\n' := (List.cons.inj hbehind).1
    revert hbackslash
    decide
  rw [countedTokensFrom_append, countedTokensFrom, hnone]
  · rfl
  · refine IsSevered.of_head fun b hb => ?_
    obtain rfl : '\n' = b := Option.some.inj hb
    decide

theorem countedTokensFrom_eq_flatMap (items : ClassedText) :
    countedTokensFrom .initial items =
      (items.splitOnP isFeed).flatMap (countedTokensFrom .initial) := by
  induction items using Text.induction_lines isFeed with
  | last line hline => rw [List.splitOnP_eq_singleton hline, List.flatMap_singleton]
  | line line feed rest hline hfeed ih =>
      rw [Text.splitOnP_line_append hline hfeed, List.flatMap_cons,
        countedTokensFrom_line _ _ hfeed, ih]

end ClassedText

namespace Balance

def countedTokens (text : Text) : List DelimiterToken :=
  (delimiters text (segment text)).map (·.toDelimiterToken)

theorem count_countedTokens (text : Text) (token : DelimiterToken) :
    (countedTokens text).count token = (tokenOffsets text token).length := by
  rw [tokenOffsets_eq, List.length_map, countedTokens, List.count, List.countP_map,
    List.countP_eq_length_filter]
  rfl

theorem countedTokens_eq (text : Text) :
    countedTokens text = ClassedText.countedTokensFrom .initial (classed text) := by
  have hbytes : (classed text).bytes = text := bytes_classedFrom _ text
  have hlength : (classed text).length = text.length := length_classedFrom _ text
  have hcounted : ∀ offset, isCountedAt text offset =
      (classed text)[offset]?.any (·.2.isCounted) := fun offset =>
    any_findAt?_segment fun _ => rfl
  have hscan := ClassedText.countedTokensFrom_eq_filterMap [] (classed text)
  rw [List.nil_append, hbytes, hlength] at hscan
  rw [show LeftContext.initial = .after (ClassedText.bytes []) from rfl, hscan,
    countedTokens, delimiters_segment, List.map_filterMap, List.filterMap_filter, List.length_nil,
    List.Ico.zero_bot]
  refine List.filterMap_congr fun offset _ => ?_
  rw [hcounted]

end Balance

end LatexIntegrity
