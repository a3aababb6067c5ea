import Mathlib.Algebra.Group.Nat.Even
import LatexIntegrity.Proofs.Repair.Tags

/-!
# Pairs of tags

The edits of the pass over tags are those of the rules that fired.  A paired rule fires with
both of its edits, so that the braces and dollar signs that it brings go together.
-/

namespace LatexIntegrity.Repair

def inserted (edits : List Edit) : Text := edits.flatMap (·.replacement)

theorem inserted_append (first second : List Edit) :
    inserted (first ++ second) = inserted first ++ inserted second := List.flatMap_append

/-- As many braces are opened as closed, and the dollar signs come in pairs. -/
structure IsBalancedMarkup (bytes : Text) : Prop where
  braces : bytes.count ('{' : UInt8) = bytes.count ('}' : UInt8)
  dollars : Even (bytes.count ('$' : UInt8))

instance (bytes : Text) : Decidable (IsBalancedMarkup bytes) :=
  decidable_of_iff (bytes.count ('{' : UInt8) = bytes.count ('}' : UInt8) ∧
      Even (bytes.count ('$' : UInt8)))
    ⟨fun h => ⟨h.1, h.2⟩, fun h => ⟨h.braces, h.dollars⟩⟩

theorem IsBalancedMarkup.append {first second : Text} (hfirst : IsBalancedMarkup first)
    (hsecond : IsBalancedMarkup second) : IsBalancedMarkup (first ++ second) where
  braces := by rw [List.count_append, List.count_append, hfirst.braces, hsecond.braces]
  dollars := by
    rw [List.count_append]
    exact hfirst.dollars.add hsecond.dollars

theorem isBalancedMarkup_rule : ∀ rule ∈ tagRules,
    IsBalancedMarkup (rule.replacement ++
      ((rule.closing.map ClosingTag.replacement).getD [])) := by
  decide

theorem Firing.IsValid.isBalancedMarkup {text : Text} {firing : Firing}
    (h : firing.IsValid text) : IsBalancedMarkup (inserted firing.edits) := by
  have hrule := isBalancedMarkup_rule firing.rule h.rule_mem
  cases firing with
  | single rule offset length =>
      obtain ⟨-, hclosing, -⟩ := h
      simpa [inserted, Firing.edits, Firing.rule, hclosing] using hrule
  | pair rule closing offset length closed =>
      obtain ⟨-, hclosing, -⟩ := h
      simpa [inserted, Firing.edits, Firing.rule, hclosing] using hrule

theorem isBalancedMarkup_firings {text : Text} {firings : List Firing}
    (h : ∀ firing ∈ firings, firing.IsValid text) :
    IsBalancedMarkup (inserted (firings.flatMap Firing.edits)) := by
  induction firings with
  | nil => decide
  | cons firing rest ih =>
      obtain ⟨hfiring, hrest⟩ := List.forall_mem_cons.mp h
      rw [List.flatMap_cons, inserted_append]
      exact hfiring.isBalancedMarkup.append (ih hrest)

/-! ## The fixes -/

theorem rule_eq_of_name : ∀ rule ∈ tagRules, ∀ other ∈ tagRules, rule.name = other.name →
    rule = other := by
  decide

theorem count_fired {text : Text} {firings : List Firing}
    (h : ∀ firing ∈ firings, firing.IsValid text) {rule : TagRule} (hrule : rule ∈ tagRules) :
    (firings.map (·.rule.name)).count rule.name = firings.countP (·.rule = rule) := by
  rw [List.count, List.countP_map]
  apply List.countP_congr
  intro firing hfiring
  have hother := (h firing hfiring).rule_mem
  simp only [Function.comp_apply, beq_iff_eq, decide_eq_true_eq]
  exact ⟨rule_eq_of_name _ hother _ hrule, congrArg TagRule.name⟩

/--
The pass over tags replaces single tags and pairs of tags, each pair as a whole: an opening
tag together with the nearest tag behind it on its line that closes it.  The edits lie in plain
spans and keep apart, and all other bytes stay.  Each rule that fired has one fix, which says
how often it did.
-/
theorem replaceTags_pairs (text : Text) :
    ∃ firings : List Firing, (∀ firing ∈ firings, firing.IsValid text) ∧
      (tagScan text).draft.edits = firings.flatMap Firing.edits ∧
      (firings.flatMap Firing.edits).Pairwise Edit.IsApart ∧
      (∀ edit ∈ firings.flatMap Firing.edits, 0 < edit.length ∧
        ∃ span ∈ segment text, span.kind = .plain ∧ span.start ≤ edit.offset ∧
          edit.offset + edit.length ≤ span.stop) ∧
      (replaceTags text).1 = Edit.splice text 0
        (Edit.inTextOrder text.length (firings.flatMap Firing.edits)) ∧
      (replaceTags text).2 = (tagRules.filterMap fun rule =>
        let count := firings.countP (·.rule = rule)
        if count = 0 then none
        else some { name := rule.name, description :=
          Text.ofString "Replaced " ++ Decimal.render count ++ Text.ofString " HTML " ++ rule.name ++
            Text.ofString " tags" }) ∧
      IsBalancedMarkup (inserted (firings.flatMap Firing.edits)) := by
  obtain ⟨hrecords, firings, hvalid, hfired, hedits⟩ := accounts_tagScan text
  refine ⟨firings, hvalid, hedits, hedits ▸ hrecords.sound.apart, ?_, ?_, ?_,
    isBalancedMarkup_firings hvalid⟩
  · rw [← hedits]
    intro edit hedit
    have htag := hrecords.edits edit hedit
    exact ⟨Nat.lt_of_succ_lt htag.tag.one_lt, htag.plain⟩
  · rw [← hedits]
    exact replaceTags_eq_splice text
  · rw [replaceTags_eq, hfired]
    apply List.filterMap_congr
    intro rule hrule
    simp only [TagRule.fix?, count_fired hvalid hrule]

/-- The second tag would be closed where the first one is, so it stays. -/
example : (replaceTags "<b><b>x</b>").1 = "\\textbf\x7b<b>x\x7d" := by
  rw [replaceTags_eq_splice]
  decide +kernel

end LatexIntegrity.Repair
