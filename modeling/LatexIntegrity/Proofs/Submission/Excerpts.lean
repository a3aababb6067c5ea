import Mathlib.Data.List.Chain
import Mathlib.Order.Bounds.Basic
import LatexIntegrity.Submission.Visible
import LatexIntegrity.Proofs.Text.Parts
import LatexIntegrity.Proofs.Text.WellFormed

/-!
# Excerpts

An excerpt shows the words of a text with single spaces between them.  If they do not fit, it
shows as much of them as its bound holds without cutting a code point, and an ellipsis.
-/

namespace LatexIntegrity.Submission

open Utf8 (WellFormed isContinuation)

variable {b : UInt8} {text before after : Text}

/-! ## Words -/

def words (text : Text) : List Text := (text.splitOnP isGap).filter (· ≠ [])

def singleSpaced (text : Text) : Text := [(' ' : UInt8)].intercalate (words text)

theorem words_cons_gap (hb : isGap b = true) (rest : Text) : words (b :: rest) = words rest := by
  rw [words, List.splitOnP_cons_eq_if_modifyHead, if_pos hb, List.filter_cons_of_neg (by simp),
    words]

theorem words_append_gap (hb : isGap b = true) (before after : Text) :
    words (before ++ b :: after) = words before ++ words after := by
  rw [words, List.splitOnP_append_cons _ _ hb, List.filter_append, words, words]

theorem words_gaps_append {gaps : Text} (h : ∀ b ∈ gaps, isGap b = true) (text : Text) :
    words (gaps ++ text) = words text := by
  induction gaps with
  | nil => rfl
  | cons b rest ih =>
      obtain ⟨hb, hrest⟩ := List.forall_mem_cons.mp h
      rw [List.cons_append, words_cons_gap hb, ih hrest]

theorem words_gaps {gaps : Text} (h : ∀ b ∈ gaps, isGap b = true) : words gaps = [] := by
  rw [← List.append_nil gaps, words_gaps_append h]
  rfl

theorem words_trim {body : Text} (h : Text.trim isGap text = body) : words text = words body := by
  obtain ⟨-, left, right, hleft, hright, rfl⟩ := Text.trim_eq_iff.mp h
  rw [List.append_assoc, words_gaps_append hleft]
  cases right with
  | nil => rw [List.append_nil]
  | cons b rest =>
      obtain ⟨hb, hrest⟩ := List.forall_mem_cons.mp hright
      rw [words_append_gap hb, words_gaps hrest, List.append_nil]

theorem words_singleton (hb : isGap b = false) : words [b] = [[b]] := by
  simp [words, List.splitOnP_cons_eq_if_modifyHead, hb]

theorem words_cons_of_gap (hb : isGap b = false) {rest : Text}
    (hrest : ∀ b ∈ rest.head?, isGap b = true) : words (b :: rest) = [b] :: words rest := by
  cases rest with
  | nil => exact words_singleton hb
  | cons gap rest =>
      have hgap := hrest gap rfl
      rw [← List.singleton_append, words_append_gap hgap, words_singleton hb, words_cons_gap hgap]
      rfl

theorem words_cons_of_byte (hb : isGap b = false) {next : UInt8} (hnext : isGap next = false)
    (rest : Text) : ∃ word others, words (next :: rest) = word :: others ∧
      words (b :: next :: rest) = (b :: word) :: others := by
  obtain ⟨word, others, hpieces⟩ := List.exists_cons_of_ne_nil (List.splitOnP_ne_nil isGap rest)
  refine ⟨next :: word, others.filter (· ≠ []), ?_, ?_⟩ <;>
    simp [words, List.splitOnP_cons_eq_if_modifyHead, hb, hnext, hpieces]

theorem words_eq_nil_iff : words text = [] ↔ ∀ b ∈ text, isGap b = true := by
  refine ⟨fun h => ?_, words_gaps⟩
  induction text with
  | nil => exact List.forall_mem_nil _
  | cons b rest ih =>
      cases hb : isGap b with
      | true => exact List.forall_mem_cons.mpr ⟨hb, ih (words_cons_gap hb rest ▸ h)⟩
      | false =>
          cases rest with
          | nil => rw [words_cons_of_gap hb (by simp)] at h; cases h
          | cons next rest =>
              cases hnext : isGap next with
              | true => rw [words_cons_of_gap hb (by simpa using hnext)] at h; cases h
              | false =>
                  obtain ⟨word, others, -, hwords⟩ := words_cons_of_byte hb hnext rest
                  rw [hwords] at h
                  cases h

/-! ## Collapsing white space -/

theorem singleSpaced_cons_gap (hb : isGap b = true) (rest : Text) :
    singleSpaced (b :: rest) = singleSpaced rest := by
  rw [singleSpaced, words_cons_gap hb, singleSpaced]

theorem singleSpaced_cons_of_gap (hb : isGap b = false) {rest : Text}
    (hrest : ∀ b ∈ rest.head?, isGap b = true) (hne : words rest ≠ []) :
    singleSpaced (b :: rest) = b :: ' ' :: singleSpaced rest := by
  rw [singleSpaced, words_cons_of_gap hb hrest, List.intercalate_cons_of_ne_nil hne]
  rfl

theorem singleSpaced_cons_of_byte (hb : isGap b = false) {next : UInt8}
    (hnext : isGap next = false) (rest : Text) :
    singleSpaced (b :: next :: rest) = b :: singleSpaced (next :: rest) := by
  obtain ⟨word, others, hrest, hwords⟩ := words_cons_of_byte hb hnext rest
  rw [singleSpaced, hwords, singleSpaced, hrest]
  cases others with
  | nil => rw [List.intercalate_singleton, List.intercalate_singleton]
  | cons other others => simp [List.intercalate_cons_cons]

theorem collapseGaps_cons_of_byte (hb : isGap b = false) (rest : Text) :
    collapseGaps (b :: rest) = b :: collapseGaps rest := by
  rw [collapseGaps, hb, if_neg Bool.false_ne_true]

theorem collapseGaps_eq (h : ∀ b ∈ text.getLast?, isGap b = false) :
    collapseGaps text =
      (if (text.head?.map isGap).getD false then [(' ' : UInt8)] else []) ++ singleSpaced text := by
  induction text with
  | nil => rfl
  | cons b rest ih =>
      cases hb : isGap b with
      | true =>
          have ih := ih fun last hlast =>
            h last (by simp [List.getLast?_cons, Option.mem_def.mp hlast])
          rw [collapseGaps, hb, if_pos rfl, ih, singleSpaced_cons_gap hb]
          split <;> simp [hb]
      | false =>
          rw [collapseGaps_cons_of_byte hb]
          cases rest with
          | nil => simp [hb, collapseGaps, singleSpaced, words_singleton hb]
          | cons next rest =>
              have hlast : ∀ b ∈ (next :: rest).getLast?, isGap b = false := fun last hlast =>
                h last (by rwa [List.getLast?_cons_cons])
              rw [ih hlast]
              cases hnext : isGap next with
              | true =>
                  -- The last byte belongs to a word behind the white space.
                  have hne : words (next :: rest) ≠ [] := by
                    intro hnil
                    have hlast := hlast _ (List.getLast?_eq_some_getLast (List.cons_ne_nil _ _))
                    rw [words_eq_nil_iff.mp hnil _ (List.getLast_mem _)] at hlast
                    cases hlast
                  rw [singleSpaced_cons_of_gap hb (by simpa using hnext) hne]
                  simp [hb, hnext]
              | false =>
                  rw [singleSpaced_cons_of_byte hb hnext]
                  simp [hb, hnext]

theorem collapseGaps_trim {body : Text} (h : Text.trim isGap text = body) :
    collapseGaps body = singleSpaced text := by
  obtain ⟨⟨hfirst, hlast⟩, -⟩ := Text.trim_eq_iff.mp h
  rw [collapseGaps_eq hlast, singleSpaced, singleSpaced, words_trim h]
  cases body with
  | nil => rfl
  | cons b rest => simp [hfirst b rfl]

/-! ## What is left of white space -/

theorem eq_space_of_mem_collapseGaps (h : b ∈ collapseGaps text) (hb : isGap b = true) :
    b = ' ' := by
  fun_induction collapseGaps text with
  | case1 => cases h
  | case2 first rest hfirst hnext ih => exact ih h
  | case3 first rest hfirst hnext ih => exact (List.mem_cons.mp h).elim id ih
  | case4 first rest hfirst ih =>
      rcases List.mem_cons.mp h with rfl | h
      · exact absurd hb hfirst
      · exact ih h

theorem isChain_collapseGaps (text : Text) :
    (collapseGaps text).IsChain fun b next => isGap b = true → isGap next = false := by
  fun_induction collapseGaps text with
  | case1 => exact .nil
  | case2 first rest hfirst hnext ih => exact ih
  | case3 first rest hfirst hnext ih =>
      refine List.isChain_cons.mpr ⟨fun b hb _ => ?_, ih⟩
      cases rest with
      | nil => cases hb
      | cons next rest =>
          have hnext : isGap next = false := by simpa using hnext
          rw [collapseGaps_cons_of_byte hnext] at hb
          obtain rfl := Option.some.inj hb
          exact hnext
  | case4 first rest hfirst ih =>
      exact List.isChain_cons.mpr ⟨fun _ _ hgap => absurd hgap hfirst, ih⟩

theorem toNat_lt_of_isGap (h : isGap b = true) : b.toNat < 0x80 := by
  revert b
  apply Ascii.forall_byte
  decide +kernel

theorem wellFormed_append_collapseGaps (h : WellFormed (before ++ text)) :
    WellFormed (before ++ collapseGaps text) := by
  have hspace : WellFormed [(' ' : UInt8)] := Utf8.wellFormed_of_all (by decide)
  fun_induction collapseGaps text generalizing before with
  | case1 => exact h
  | case2 first rest hfirst hnext ih =>
      have hascii := toNat_lt_of_isGap hfirst
      have hbefore := (h.cut (Utf8.isContinuation_of_ascii hascii)).1
      exact ih (hbefore.append (h.cut_behind hascii).2)
  | case3 first rest hfirst hnext ih =>
      have hascii := toNat_lt_of_isGap hfirst
      have hbefore := (h.cut (Utf8.isContinuation_of_ascii hascii)).1
      rw [List.append_cons]
      exact ih ((hbefore.append hspace).append (h.cut_behind hascii).2)
  | case4 first rest hfirst ih =>
      rw [List.append_cons] at h ⊢
      exact ih h

theorem wellFormed_trim {body : Text} (h : WellFormed text) (hbody : Text.trim isGap text = body) :
    WellFormed body := by
  obtain ⟨-, left, right, hleft, hright, rfl⟩ := Text.trim_eq_iff.mp hbody
  rw [List.append_assoc] at h
  exact h.between (fun b hb => toNat_lt_of_isGap (hleft b (List.mem_of_getLast? hb)))
    fun b hb => toNat_lt_of_isGap (hright b (List.mem_of_head? hb))

theorem wellFormed_singleSpaced (h : WellFormed text) : WellFormed (singleSpaced text) := by
  rw [← collapseGaps_trim rfl, ← List.nil_append (collapseGaps _)]
  exact wellFormed_append_collapseGaps (wellFormed_trim h rfl)

/-! ## Cutting -/

def boundaries (text : Text) (limit : Nat) : Set Nat :=
  {offset | offset ≤ limit ∧ WellFormed (text.take offset)}

theorem isGreatest_boundaryBefore (h : WellFormed text) {limit : Nat}
    (hlimit : limit < text.length) :
    IsGreatest (boundaries text limit) (boundaryBefore text limit) := by
  induction limit with
  | zero => exact ⟨⟨Nat.le_refl 0, Utf8.wellFormed_nil⟩, fun offset hoffset => hoffset.1⟩
  | succ limit ih =>
      have hget := List.getElem?_eq_getElem hlimit
      have htake := h.take_iff hget
      rw [boundaryBefore, hget, Option.map_some, Option.getD_some]
      cases hcontinues : isContinuation text[limit + 1] with
      | true =>
          rw [if_pos rfl]
          obtain ⟨⟨hle, hcut⟩, hgreatest⟩ := ih (by omega)
          refine ⟨⟨by omega, hcut⟩, fun offset hoffset => ?_⟩
          have hne : offset ≠ limit + 1 := by
            rintro rfl
            rw [htake.mp hoffset.2] at hcontinues
            cases hcontinues
          have hoffset' := hoffset.1
          exact hgreatest ⟨by omega, hoffset.2⟩
      | false =>
          rw [if_neg Bool.false_ne_true]
          exact ⟨⟨Nat.le_refl _, htake.mpr hcontinues⟩, fun offset hoffset => hoffset.1⟩

/-! ## Excerpts -/

def ellipsis : Text := "..."

structure IsExcerpt (limit : Nat) (source shown : Text) : Prop where
  wellFormed : WellFormed shown
  length_le : shown.length ≤ limit + 3
  oneLine : ('\n' : UInt8) ∉ shown ∧ ('\t' : UInt8) ∉ shown ∧ ('\r' : UInt8) ∉ shown
  spacing : ¬[(' ' : UInt8), ' '] <:+: shown
  /-- All words are shown, or as much of them as the bound holds without a part of a form. -/
  cut : shown = singleSpaced source ∧ shown.length ≤ limit ∨
    limit < (singleSpaced source).length ∧
      ∃ stop, IsGreatest (boundaries (singleSpaced source) limit) stop ∧
        shown = (singleSpaced source).take stop ++ ellipsis

structure IsSpaced (text : Text) : Prop where
  space : ∀ b ∈ text, isGap b = true → b = ' '
  chain : text.IsChain fun b next => isGap b = true → isGap next = false

theorem isSpaced_singleSpaced (text : Text) : IsSpaced (singleSpaced text) := by
  rw [← collapseGaps_trim rfl]
  exact ⟨fun _ => eq_space_of_mem_collapseGaps, isChain_collapseGaps _⟩

namespace IsSpaced

theorem take_append_ellipsis (h : IsSpaced text) (stop : Nat) :
    IsSpaced (text.take stop ++ ellipsis) := by
  have hellipsis : ∀ b ∈ ellipsis, isGap b = false := by
    have hall : (ellipsis.all (!isGap ·)) = true := by decide
    simpa using hall
  have hchain : ellipsis.IsChain fun b next => isGap b = true → isGap next = false := by decide
  constructor
  · intro b hb hgap
    rcases List.mem_append.mp hb with hb | hb
    · exact h.space b (List.mem_of_mem_take hb) hgap
    · rw [hellipsis b hb] at hgap
      cases hgap
  · refine List.isChain_append.mpr ⟨h.chain.take stop, hchain, fun _ _ next hnext _ => ?_⟩
    exact hellipsis next (List.mem_of_head? hnext)

theorem oneLine (h : IsSpaced text) :
    ('\n' : UInt8) ∉ text ∧ ('\t' : UInt8) ∉ text ∧ ('\r' : UInt8) ∉ text := by
  refine ⟨fun hmem => ?_, fun hmem => ?_, fun hmem => ?_⟩ <;>
    exact absurd (h.space _ hmem (by decide)) (by decide)

theorem spacing (h : IsSpaced text) : ¬[(' ' : UInt8), ' '] <:+: text := by
  rintro ⟨before, after, rfl⟩
  have hspaces := List.isChain_iff_forall_rel_of_append_cons_cons.mp h.chain (List.append_assoc ..)
  exact absurd (hspaces (by decide)) (by decide)

end IsSpaced

theorem isSpaced_excerpt (limit : Nat) (text : Text) : IsSpaced (excerpt limit text) := by
  have hspaced := isSpaced_singleSpaced text
  rw [excerpt, collapseGaps_trim rfl, shorten]
  split
  · exact hspaced.take_append_ellipsis _
  · exact hspaced

theorem isExcerpt_excerpt (h : WellFormed text) (limit : Nat) :
    IsExcerpt limit text (excerpt limit text) := by
  have hwhole := wellFormed_singleSpaced h
  have hspaced := isSpaced_excerpt limit text
  rw [excerpt, collapseGaps_trim rfl, shorten] at hspaced ⊢
  by_cases hlimit : limit < (singleSpaced text).length
  · rw [if_pos hlimit] at hspaced ⊢
    have hstop := isGreatest_boundaryBefore hwhole hlimit
    have hle := hstop.1.1
    have hellipsis : ("..." : Text).length = 3 := by decide
    refine ⟨hstop.1.2.append (Utf8.wellFormed_of_all (by decide)), ?_, hspaced.oneLine,
      hspaced.spacing, .inr ⟨hlimit, _, hstop, rfl⟩⟩
    rw [List.length_append, List.length_take, hellipsis]
    omega
  · rw [if_neg hlimit] at hspaced ⊢
    have hlimit := Nat.not_lt.mp hlimit
    exact ⟨hwhole, Nat.le_add_right_of_le hlimit, hspaced.oneLine, hspaced.spacing,
      .inl ⟨rfl, hlimit⟩⟩

end LatexIntegrity.Submission
