import LatexIntegrity.Proofs.Balance.ClassedTokens
import LatexIntegrity.Proofs.Repair.MarkedRegions
import LatexIntegrity.Proofs.Text.Occurrences

/-!
# The balance of a text whose lines are commented out

A line that is commented out holds no delimiter, neither with the marker nor without it.
Commenting it out therefore changes which delimiters count only if it changes the regions of
other lines, that is, if a region that begins on the line goes on behind it.
-/

namespace LatexIntegrity.Repair

variable {disk : Disk Id} {options : FigureOptions} {directory text line marker : Text}

theorem tokensFrom_of_holdsDelimiter (h : FigurePass.holdsDelimiter line = false)
    (context : LeftContext) : tokensFrom context line = [] := by
  induction line generalizing context with
  | nil => rfl
  | cons b rest ih =>
      simp only [FigurePass.holdsDelimiter, Text.contains_cons, Bool.or_eq_false_iff] at h ih
      obtain ⟨⟨hbegin, hbegin'⟩, hend, hend'⟩ := h
      have hnone : headToken? context (b :: rest) = none := by
        refine Option.eq_none_iff_forall_ne_some.mpr fun token htoken => ?_
        obtain ⟨-, -, hsource⟩ := headToken?_eq_some_iff.mp htoken
        have hhead : token.head <+: b :: rest := by
          rw [token.source_eq_concat, List.append_assoc] at hsource
          exact (List.prefix_append _ _).trans hsource
        rw [← List.isPrefixOf_iff_prefix] at hhead
        obtain ⟨side, name⟩ := token
        cases side with
        | opening => exact absurd hhead (Bool.eq_false_iff.mp hbegin)
        | closing => exact absurd hhead (Bool.eq_false_iff.mp hend)
      rw [tokensFrom, hnone, ih ⟨hbegin', hend'⟩]
      rfl

theorem countedTokensFrom_markLine {items : ClassedText} (hmarker : IsPlainMarker marker)
    (h : FigurePass.holdsDelimiter items.bytes = false) :
    (markLine marker items).countedTokensFrom .initial = [] ∧
      items.countedTokensFrom .initial = [] := by
  have hbackslash : ('\\' : UInt8) ∉ marker := hmarker.not_mem (by decide)
  have hmarked : tokensFrom .initial (markLine marker items).bytes = [] := by
    rw [ClassedText.bytes_markLine, tokensFrom_append (.of_not_mem hbackslash),
      tokensFrom_eq_nil hbackslash, tokensFrom_of_holdsDelimiter h]
    rfl
  have hline := tokensFrom_of_holdsDelimiter h .initial
  constructor
  · exact List.sublist_nil.mp (hmarked ▸ ClassedText.countedTokensFrom_sublist _ _)
  · exact List.sublist_nil.mp (hline ▸ ClassedText.countedTokensFrom_sublist _ _)

theorem holdsDelimiter_of_mem {figure : FigureReference}
    (h : figure ∈ commentedFigures disk options directory text) {items : ClassedText}
    (hline : (classedLines text)[Text.lineNumber text figure.offset]? = some items) :
    FigurePass.holdsDelimiter items.bytes = false := by
  have hcommentable : figure.isCommentable text (segment text) = true := (List.mem_filter.mp h).2
  have hbytes := Text.getElem?_lines_lineNumber (Nat.le_of_lt (offset_lt_of_mem_commentedFigures h))
  rw [← map_bytes_classedLines, List.getElem?_map, hline, Option.map_some,
    Option.some.injEq] at hbytes
  simp only [FigureReference.isCommentable, Bool.and_eq_true, Bool.not_eq_true'] at hcommentable
  rw [hbytes]
  exact hcommentable.1.2

/-- Where no region goes on behind the lines of the figures, the same delimiters count. -/
theorem countedTokens_commentOutMissing (hmarker : IsPlainMarker options.marker)
    (hclosed : ∀ figure ∈ commentedFigures disk options directory text,
      figure.HasClosedLine text) :
    Balance.countedTokens (commentOutMissing disk options directory text).draft.apply =
      Balance.countedTokens text := by
  have hlines := classedLines_commentOutMissing hmarker hclosed
  rw [classedLines, classedLines] at hlines
  rw [Balance.countedTokens_eq, Balance.countedTokens_eq,
    ClassedText.countedTokensFrom_eq_flatMap, hlines,
    ClassedText.countedTokensFrom_eq_flatMap (classed text), List.flatMap_def,
    List.flatMap_def]
  congr 1
  apply List.ext_getElem?
  intro number
  simp only [List.getElem?_map, List.getElem?_mapIdx, Option.map_map]
  cases hline : ((classed text).splitOnP ClassedText.isFeed)[number]? with
  | none => rfl
  | some items =>
      simp only [Option.map_some, Function.comp_apply, Option.some.injEq]
      split
      · next hnumber =>
          obtain ⟨figure, hfigure, rfl⟩ := List.mem_map.mp hnumber
          obtain ⟨hmarked, hplain⟩ :=
            countedTokensFrom_markLine hmarker (holdsDelimiter_of_mem hfigure hline)
          rw [hmarked, hplain]
      · rfl

/--
Commenting figures out neither adds nor removes a delimiter.  As many delimiters of a name
count as before exactly if as many of them stand in comments and definitions, and the same ones
count if no region that begins on the line of such a figure goes on behind it.
-/
theorem commentOutMissing_delimiters (disk : Disk Id) (options : FigureOptions)
    (directory text : Text) (hmarker : IsPlainMarker options.marker) :
    let out := (commentOutMissing disk options directory text).draft.apply
    tokensFrom .initial out = tokensFrom .initial text ∧
    (∀ token, (Balance.countedTokens out).count token =
        (Balance.countedTokens text).count token ↔
      (Balance.hiddenOffsets out token).length = (Balance.hiddenOffsets text token).length) ∧
    ((∀ figure ∈ commentedFigures disk options directory text, figure.HasClosedLine text) →
      Balance.countedTokens out = Balance.countedTokens text) := by
  intro out
  have htokens : tokensFrom .initial out = tokensFrom .initial text :=
    tokensFrom_commentOutFigures (hmarker.not_mem (by decide)) text _
  refine ⟨htokens, fun token => ?_, countedTokens_commentOutMissing hmarker⟩
  have hout := Balance.count_tokensFrom out token
  have htext := Balance.count_tokensFrom text token
  rw [htokens, htext] at hout
  rw [Balance.count_countedTokens, Balance.count_countedTokens]
  omega

/-- Only the second text has a line that begins a definition which goes on behind it. -/
theorem commentOutMissing_delimiters_opened :
    let disk : Disk Id := ⟨[], fun _ => false, fun _ => none, fun _ _ => .refused⟩
    let closed : Text := "\\begin\x7ba\x7d\n\\includegraphics\x7bgone\x7d $x$\n\\end\x7ba\x7d\n"
    let opened : Text :=
      "\\includegraphics\x7bgone\x7d\\newcommand\x7b\\a\x7d\x7b\n\\begin\x7ba\x7d\x7d\n"
    let out := fun text => (commentOutMissing disk {} [] text).draft.apply
    IsPlainMarker (FigureOptions.marker {}) ∧
    Balance.countedTokens (out closed) = [⟨.opening, "a"⟩, ⟨.closing, "a"⟩] ∧
    Balance.countedTokens opened = [] ∧ Balance.countedTokens (out opened) = [⟨.opening, "a"⟩] ∧
    (Balance.hiddenOffsets opened ⟨.opening, "a"⟩).length ≠
      (Balance.hiddenOffsets (out opened) ⟨.opening, "a"⟩).length := by
  intro disk closed opened out
  have hmarker : IsPlainMarker (FigureOptions.marker {}) := by decide +kernel
  have hclosed : ∀ figure ∈ commentedFigures disk {} [] closed, figure.HasClosedLine closed := by
    decide +kernel
  obtain ⟨-, -, hkept⟩ := commentOutMissing_delimiters disk {} [] closed hmarker
  obtain ⟨-, hcount, -⟩ := commentOutMissing_delimiters disk {} [] opened hmarker
  have hopened : Balance.countedTokens opened = [] := by decide +kernel
  have hout : Balance.countedTokens (out opened) = [⟨.opening, "a"⟩] := by decide +kernel
  refine ⟨hmarker, (hkept hclosed).trans (by decide +kernel), hopened, hout, fun heq => ?_⟩
  have hsame := (hcount ⟨.opening, "a"⟩).mpr heq.symm
  rw [hopened, show (commentOutMissing disk {} [] opened).draft.apply = out opened from rfl, hout]
    at hsame
  simp at hsame

end LatexIntegrity.Repair
