import Mathlib.Data.List.Induction
import Mathlib.Data.List.Infix
import Mathlib.Order.Bounds.Defs
import LatexIntegrity.Proofs.Edit.Draft
import LatexIntegrity.Proofs.Text.Occurrences
import LatexIntegrity.Repair.Tags

/-!
# Replacing tags

The pass over tags replaces tags of plain text and nothing else.  Each time that a rule
fires, it replaces one tag, or a tag together with the nearest one on its line that closes
it.  A text in which no rule fires is left as it is.
-/

namespace LatexIntegrity

theorem Text.endOfLine_add {text body rest : Text} {offset : Nat}
    (h : text.drop offset = body ++ rest) (hline : ('\n' : UInt8) ∉ body) :
    endOfLine text offset = endOfLine text (offset + body.length) := by
  have hbody : ∀ b ∈ body, (b != ('\n' : UInt8)) = true := by
    intro b hb
    have hne : b ≠ ('\n' : UInt8) := by
      rintro rfl
      exact hline hb
    simpa using hne
  rw [endOfLine, endOfLine, ← List.drop_drop, h, List.drop_left,
    List.takeWhile_append_of_pos hbody, List.length_append, Nat.add_assoc]

namespace Repair

/-! ## The shapes of tags -/

structure StartsWithTag (text : Text) (length : Nat) : Prop where
  opened : text[0]? = some ('<' : UInt8)
  closed : text[length - 1]? = some ('>' : UInt8)

instance (text : Text) (length : Nat) : Decidable (StartsWithTag text length) :=
  decidable_of_iff (text[0]? = some ('<' : UInt8) ∧ text[length - 1]? = some ('>' : UInt8))
    ⟨fun h => ⟨h.1, h.2⟩, fun h => ⟨h.opened, h.closed⟩⟩

theorem StartsWithTag.one_lt {text : Text} {length : Nat} (h : StartsWithTag text length) :
    1 < length := by
  by_contra hle
  obtain ⟨hopened, hclosed⟩ := h
  rw [show length - 1 = 0 by omega, hopened] at hclosed
  revert hclosed
  decide

theorem eq_of_toLower_eq {b bracket : UInt8} (h : bracket = '<' ∨ bracket = '>')
    (hb : Ascii.toLower b = bracket) : b = bracket := by
  have hall : ∀ b : UInt8, (Ascii.toLower b = '<' → b = '<') ∧
      (Ascii.toLower b = '>' → b = '>') := by
    apply Ascii.forall_byte
    decide +kernel
  rcases h with rfl | rfl
  · exact (hall b).1 hb
  · exact (hall b).2 hb

theorem getElem?_of_lower {tag text : Text} (h : Ascii.lower tag <+: Ascii.lower text)
    {bracket : UInt8} (hbracket : bracket = '<' ∨ bracket = '>') {index : Nat}
    (htag : (Ascii.lower tag)[index]? = some bracket) : text[index]? = some bracket := by
  obtain ⟨behind, hbehind⟩ := h
  have hinside := (List.getElem?_eq_some_iff.mp htag).1
  rw [← @List.getElem?_append_left _ _ behind _ hinside, hbehind, Ascii.lower,
    List.getElem?_map, Option.map_eq_some_iff] at htag
  obtain ⟨b, hb, heq⟩ := htag
  rw [hb, eq_of_toLower_eq hbracket heq]

theorem StartsWithTag.of_lower {tag text : Text} {length : Nat}
    (htag : StartsWithTag (Ascii.lower tag) length)
    (h : Ascii.lower tag <+: Ascii.lower text) : StartsWithTag text length :=
  ⟨getElem?_of_lower h (.inl rfl) htag.opened, getElem?_of_lower h (.inr rfl) htag.closed⟩

theorem startsIgnoringCase_iff {needle text : Text} :
    Ascii.startsIgnoringCase needle text = true ↔ Ascii.lower needle <+: Ascii.lower text := by
  simp [Ascii.startsIgnoringCase, Ascii.lower, List.map_take, List.prefix_take_iff]

def TagRule.literals (rule : TagRule) : List Text :=
  let opened : List Text := match rule.shape with
    | .literal tag => [tag]
    | _ => []
  opened ++ (rule.closing.map ClosingTag.tag).toList

theorem startsWithTag_literals : ∀ rule ∈ tagRules, ∀ tag ∈ rule.literals,
    StartsWithTag (Ascii.lower tag) tag.length := by
  decide

namespace TagShape

variable {text : Text} {length : Nat}

theorem startsWithTag_lineBreak (h : lineBreakLength? text = some length) :
    StartsWithTag text length := by
  unfold lineBreakLength? at h
  split at h
  · cases h
  · next hstarts =>
      simp only [Option.ite_none_right_eq_some, Option.some.injEq] at h
      obtain ⟨hclosed, rfl⟩ := h
      rw [List.head?_drop, List.getElem?_drop, ← Nat.add_assoc] at hclosed
      rw [Bool.not_eq_true, Bool.not_eq_false'] at hstarts
      refine ⟨?_, hclosed⟩
      exact getElem?_of_lower (startsIgnoringCase_iff.mp hstarts) (.inl rfl) (by decide)

theorem startsWithTag_block (h : blockLength? text = some length) :
    StartsWithTag text length := by
  unfold blockLength? at h
  split at h
  · cases h
  · next b rest =>
      simp only [Option.ite_none_left_eq_some, bne_iff_ne, ne_eq, not_not] at h
      obtain ⟨rfl, h⟩ := h
      split at h
      · cases h
      · simp only [Option.ite_none_right_eq_some, Option.some.injEq] at h
        obtain ⟨hclosed, rfl⟩ := h
        rw [List.head?_drop, List.getElem?_drop] at hclosed
        refine ⟨rfl, ?_⟩
        rw [← hclosed, Nat.add_sub_cancel, Nat.add_assoc 1, Nat.add_assoc 1, Nat.add_comm 1]
        rfl

theorem startsWithTag_of_length? {rule : TagRule} (hrule : rule ∈ tagRules)
    (h : rule.shape.length? text = some length) : StartsWithTag text length := by
  cases hshape : rule.shape with
  | literal tag =>
      rw [hshape, length?, Option.ite_none_right_eq_some, Option.some.injEq] at h
      obtain ⟨hstarts, rfl⟩ := h
      have htag : tag ∈ rule.literals := by simp [TagRule.literals, hshape]
      exact (startsWithTag_literals rule hrule tag htag).of_lower
        (startsIgnoringCase_iff.mp hstarts)
  | lineBreak => exact startsWithTag_lineBreak (by rwa [hshape] at h)
  | block => exact startsWithTag_block (by rwa [hshape] at h)

end TagShape

/-! ## Rules that fire -/

/-- The nearest place behind an opening tag at which a closing tag stands on the same line. -/
def IsNearestClosing (text tag : Text) (offset length place : Nat) : Prop :=
  IsLeast {place | offset + length ≤ place ∧ place + tag.length ≤ Text.endOfLine text offset ∧
    Ascii.startsIgnoringCase tag (text.drop place) = true} place

/-- One application of a rule to a tag, or to a tag and the one that closes it. -/
inductive Firing where
  | single (rule : TagRule) (offset length : Nat)
  | pair (rule : TagRule) (closing : ClosingTag) (offset length closed : Nat)
  deriving DecidableEq, Repr

namespace Firing

def rule : Firing → TagRule
  | single rule _ _ => rule
  | pair rule _ _ _ _ => rule

def edits : Firing → List Edit
  | single rule offset length => [⟨offset, length, rule.replacement⟩]
  | pair rule closing offset length closed =>
      [⟨offset, length, rule.replacement⟩, ⟨closed, closing.tag.length, closing.replacement⟩]

/-- A rule fires where its tag stands, and a paired one where its tag is closed, too. -/
def IsValid (text : Text) : Firing → Prop
  | single rule offset length => rule ∈ tagRules ∧ rule.closing = none ∧
      rule.shape.length? (text.drop offset) = some length
  | pair rule closing offset length closed => rule ∈ tagRules ∧ rule.closing = some closing ∧
      rule.shape.length? (text.drop offset) = some length ∧
        IsNearestClosing text closing.tag offset length closed

theorem IsValid.rule_mem {text : Text} {firing : Firing} (h : firing.IsValid text) :
    firing.rule ∈ tagRules := by
  cases firing <;> exact h.1

end Firing

theorem shape_of_closing : ∀ rule ∈ tagRules, rule.closing ≠ none →
    ∃ tag : Text, rule.shape = .literal tag ∧ ('\n' : UInt8) ∉ Ascii.lower tag := by
  have hliteral : ∀ rule ∈ tagRules, rule.closing ≠ none →
      rule.literals.head?.map TagShape.literal = some rule.shape ∧
        ∀ tag ∈ rule.literals, ('\n' : UInt8) ∉ Ascii.lower tag := by
    decide
  intro rule hrule hclosing
  obtain ⟨hshape, hline⟩ := hliteral rule hrule hclosing
  obtain ⟨tag, htag, hshape⟩ := Option.map_eq_some_iff.mp hshape
  exact ⟨tag, hshape.symm, hline tag (List.mem_of_head? htag)⟩

theorem endOfLine_of_length? {rule : TagRule} (hrule : rule ∈ tagRules)
    (hclosing : rule.closing ≠ none) {text : Text} {offset length : Nat}
    (h : rule.shape.length? (text.drop offset) = some length) :
    Text.endOfLine text offset = Text.endOfLine text (offset + length) := by
  obtain ⟨tag, hshape, hline⟩ := shape_of_closing rule hrule hclosing
  rw [hshape, TagShape.length?, Option.ite_none_right_eq_some, Option.some.injEq] at h
  obtain ⟨hstarts, rfl⟩ := h
  have hlower := startsIgnoringCase_iff.mp hstarts
  have hbody : Ascii.lower ((text.drop offset).take tag.length) = Ascii.lower tag := by
    rw [List.prefix_iff_eq_take.mp hlower]
    simp [Ascii.lower, List.map_take]
  have hlength := congrArg List.length hbody
  simp only [Ascii.lower, List.length_map] at hlength
  have hfeed : ('\n' : UInt8) ∉ (text.drop offset).take tag.length := by
    intro hmem
    have hfold : Ascii.toLower ('\n' : UInt8) = ('\n' : UInt8) := by decide
    exact hline (hbody ▸ hfold ▸ List.mem_map_of_mem hmem)
  have hend := Text.endOfLine_add (List.take_append_drop tag.length _).symm hfeed
  rwa [hlength] at hend

theorem prefix_lower_drop_iff {tag line : Text} {distance : Nat} :
    Ascii.lower tag <+: (Ascii.lower (line.takeWhile (· != ('\n' : UInt8)))).drop distance ↔
      Ascii.startsIgnoringCase tag (line.drop distance) = true ∧
        tag.length ≤ (line.takeWhile (· != ('\n' : UInt8))).length - distance := by
  have hline := List.prefix_iff_eq_take.mp (line.takeWhile_prefix (· != ('\n' : UInt8)))
  generalize (line.takeWhile (· != ('\n' : UInt8))).length = length at hline ⊢
  rw [hline, startsIgnoringCase_iff]
  simp only [Ascii.lower, ← List.map_drop, List.drop_take, List.map_take, List.prefix_take_iff,
    List.length_map]

theorem isNearestClosing_of_closingDistance? {rule : TagRule} (hrule : rule ∈ tagRules)
    {closing : ClosingTag} (hclosing : rule.closing = some closing) {text : Text}
    {offset length distance : Nat} (hlength : rule.shape.length? (text.drop offset) = some length)
    (h : TagScan.closingDistance? closing.tag (text.drop (offset + length)) = some distance) :
    IsNearestClosing text closing.tag offset length (offset + length + distance) := by
  have htag : closing.tag ∈ rule.literals := by simp [TagRule.literals, hclosing]
  have hpos := (startsWithTag_literals rule hrule _ htag).one_lt
  rw [IsNearestClosing, endOfLine_of_length? hrule (by simp [hclosing]) hlength]
  generalize offset + length = start at h ⊢
  have hline : ∀ place, start ≤ place →
      (place + closing.tag.length ≤ Text.endOfLine text start ∧
          Ascii.startsIgnoringCase closing.tag (text.drop place) = true ↔
        Ascii.lower closing.tag <+: (Ascii.lower ((text.drop start).takeWhile
          (· != ('\n' : UInt8)))).drop (place - start)) := by
    intro place hplace
    rw [prefix_lower_drop_iff, List.drop_drop, Nat.add_sub_cancel' hplace, and_comm,
      and_congr_right_iff]
    intro _
    unfold Text.endOfLine
    omega
  constructor
  · refine ⟨Nat.le_add_right _ _, (hline _ (Nat.le_add_right _ _)).mpr ?_⟩
    rw [Nat.add_sub_cancel_left]
    exact Text.isPrefix_drop_of_search h
  · rintro place ⟨hstart, hplace⟩
    by_contra hlt
    exact Text.not_isPrefix_of_lt_search h (by omega) ((hline place hstart).mp hplace)

namespace TagScan

/-- What a rule does that settles the matter at an offset. -/
theorem attempt_spec {scan next : TagScan} {offset length : Nat} {text : Text}
    {rules : List TagRule} (hrules : ∀ rule ∈ rules, rule ∈ tagRules)
    (h : attempt scan offset (text.drop offset) rules = some (next, length)) :
    ∃ firing : Firing, firing.IsValid text ∧ next.fired = scan.fired ++ [firing.rule.name] ∧
      firing.rule.shape.length? (text.drop offset) = some length ∧
        firing.edits.foldlM (fun draft edit =>
          draft.replace? edit.offset edit.length edit.replacement) scan.draft =
            some next.draft := by
  induction rules with
  | nil => cases h
  -- A rule whose tag is missing, or not closed on its line, leaves the matter to the others.
  | cons rule others ih =>
      obtain ⟨hrule, hothers⟩ := List.forall_mem_cons.mp hrules
      rw [attempt] at h
      split at h
      · exact ih hothers h
      · next length' hlength hclosing =>
          simp only [Option.bind_eq_bind, Option.bind_eq_some_iff, Option.pure_def,
            Option.some.injEq] at h
          obtain ⟨draft, hreplace, heq⟩ := h
          cases heq
          exact ⟨.single rule offset length, ⟨hrule, hclosing, hlength⟩, rfl, hlength,
            by simp [Firing.edits, hreplace]⟩
      · next length' closing hlength hclosing =>
          split at h
          · exact ih hothers h
          · next distance hdistance =>
              rw [List.drop_drop] at hdistance
              have hnearest := isNearestClosing_of_closingDistance? hrule hclosing hlength
                hdistance
              simp only [Option.bind_eq_bind, Option.bind_eq_some_iff, Option.pure_def,
                Option.some.injEq] at h
              obtain ⟨opened, hopen, draft, hclose, heq⟩ := h
              cases heq
              exact ⟨.pair rule closing offset length (offset + length + distance),
                ⟨hrule, hclosing, hlength, hnearest⟩, rfl, hlength,
                by simp [Firing.edits, hopen, hclose]⟩

end TagScan

/-! ## The edits of a scan -/

def tagReplacements : List Text :=
  tagRules.flatMap fun rule =>
    rule.replacement :: (rule.closing.map ClosingTag.replacement).toList

structure IsTagEdit (text : Text) (edit : Edit) : Prop where
  tag : StartsWithTag (text.drop edit.offset) edit.length
  written : edit.replacement ∈ tagReplacements
  plain : ∃ span ∈ segment text, span.kind = .plain ∧ span.start ≤ edit.offset ∧
    edit.offset + edit.length ≤ span.stop

theorem Firing.IsValid.edits {text : Text} {firing : Firing} (h : firing.IsValid text) :
    ∀ edit ∈ firing.edits, StartsWithTag (text.drop edit.offset) edit.length ∧
      edit.replacement ∈ tagReplacements := by
  have hrule := h.rule_mem
  have hwritten : ∀ replacement ∈ firing.rule.replacement ::
      (firing.rule.closing.map ClosingTag.replacement).toList, replacement ∈ tagReplacements :=
    fun replacement hmem => List.mem_flatMap.mpr ⟨firing.rule, hrule, hmem⟩
  cases firing with
  | single rule offset length =>
      obtain ⟨-, -, hlength⟩ := h
      refine List.forall_mem_singleton.mpr ⟨?_, hwritten _ List.mem_cons_self⟩
      exact TagShape.startsWithTag_of_length? hrule hlength
  | pair rule closing offset length closed =>
      obtain ⟨-, hclosing, hlength, ⟨-, -, hstarts⟩, -⟩ := h
      have htag : closing.tag ∈ rule.literals := by simp [TagRule.literals, hclosing]
      refine List.forall_mem_cons.mpr ⟨⟨?_, hwritten _ List.mem_cons_self⟩,
        List.forall_mem_singleton.mpr ⟨?_, hwritten _ (by simp [Firing.rule, hclosing])⟩⟩
      · exact TagShape.startsWithTag_of_length? hrule hlength
      · exact (startsWithTag_literals rule hrule _ htag).of_lower
          (startsIgnoringCase_iff.mp hstarts)

namespace TagScan

structure RecordsTags (text : Text) (draft : Draft) : Prop where
  spans : draft.spans = segment text
  sound : draft.IsSound
  edits : ∀ edit ∈ draft.edits, IsTagEdit text edit
  text : draft.text = text

/-- The edits of a scan replace tags, and each of them comes from a rule that fired. -/
structure Accounts (text : Text) (scan : TagScan) : Prop where
  records : RecordsTags text scan.draft
  firings : ∃ firings : List Firing, (∀ firing ∈ firings, firing.IsValid text) ∧
    scan.fired = firings.map (·.rule.name) ∧ scan.draft.edits = firings.flatMap Firing.edits

variable {text : Text}

theorem RecordsTags.replace? {draft next : Draft} {offset length : Nat} {replacement : Text}
    (h : RecordsTags text draft) (htag : StartsWithTag (text.drop offset) length)
    (hwritten : replacement ∈ tagReplacements)
    (hreplace : draft.replace? offset length replacement = some next) :
    RecordsTags text next := by
  have hperform : (Draft.Request.replace offset length replacement).perform? draft = some next :=
    hreplace
  obtain ⟨rfl, hsafe, -⟩ := Draft.Request.perform?_spec h.sound.tiles hperform
  have hlength : 0 < length := Nat.lt_of_succ_lt htag.one_lt
  refine ⟨h.spans, h.sound.perform? hperform, ?_, h.text⟩
  intro edit hedit
  rcases List.mem_append.mp hedit with hedit | hedit
  · exact h.edits edit hedit
  · rw [List.mem_singleton.mp hedit]
    exact ⟨htag, hwritten, h.spans ▸ hsafe.plain hlength⟩

theorem RecordsTags.foldlM {draft next : Draft} {edits : List Edit} (h : RecordsTags text draft)
    (hedits : ∀ edit ∈ edits, StartsWithTag (text.drop edit.offset) edit.length ∧
      edit.replacement ∈ tagReplacements)
    (hnext : edits.foldlM (fun draft edit =>
      draft.replace? edit.offset edit.length edit.replacement) draft = some next) :
    RecordsTags text next ∧ next.edits = draft.edits ++ edits := by
  induction edits generalizing draft with
  | nil =>
      cases hnext
      exact ⟨h, (List.append_nil _).symm⟩
  | cons edit rest ih =>
      obtain ⟨⟨htag, hwritten⟩, hrest⟩ := List.forall_mem_cons.mp hedits
      rw [List.foldlM_cons, Option.bind_eq_bind, Option.bind_eq_some_iff] at hnext
      obtain ⟨middle, hmiddle, hnext⟩ := hnext
      obtain ⟨hrecords, hall⟩ := ih (h.replace? htag hwritten hmiddle) hrest hnext
      refine ⟨hrecords, ?_⟩
      rw [hall, (h.sound.replace? hmiddle).2]
      simp [Draft.record]

theorem Accounts.attempt {scan next : TagScan} {offset length : Nat} (h : Accounts text scan)
    (hattempt : attempt scan offset (text.drop offset) tagRules = some (next, length)) :
    Accounts text next ∧ StartsWithTag (text.drop offset) length := by
  obtain ⟨firing, hvalid, hfired, hlength, hnext⟩ := attempt_spec (fun _ hrule => hrule) hattempt
  obtain ⟨hrecords, hedits⟩ := h.records.foldlM hvalid.edits hnext
  obtain ⟨firings, hall, hnames, hbefore⟩ := h.firings
  refine ⟨⟨hrecords, firings ++ [firing], ?_, ?_, ?_⟩,
    TagShape.startsWithTag_of_length? hvalid.rule_mem hlength⟩
  · exact List.forall_mem_append.mpr ⟨hall, List.forall_mem_singleton.mpr hvalid⟩
  · simp [hfired, hnames]
  · simp [hedits, hbefore]

variable {scan : TagScan}

theorem Accounts.runTo (h : Accounts text scan) (stop offset : Nat) :
    Accounts text (scan.runTo stop offset (text.drop offset)) := by
  generalize hrest : text.drop offset = rest
  fun_induction TagScan.runTo stop scan offset rest with
  | case1 scan offset => exact h
  | case2 scan offset b rest hstop => exact h
  | case3 scan offset b rest hstop next length hattempt ih =>
      obtain ⟨-, hattempt⟩ := Option.ite_none_right_eq_some.mp hattempt
      rw [← hrest] at hattempt
      obtain ⟨hnext, htag⟩ := h.attempt hattempt
      apply ih hnext
      have hlength := htag.one_lt
      rw [← List.drop_drop, hrest, List.drop_cons (by omega)]
  | case4 scan offset b rest hstop hattempt ih =>
      apply ih h
      rw [← List.drop_drop, hrest, List.drop_succ_cons, List.drop_zero]

theorem Accounts.runSpan (h : Accounts text scan) (span : Span) :
    Accounts text (scan.runSpan span) := by
  unfold TagScan.runSpan
  split
  · rw [h.records.text]
    exact h.runTo _ _
  · exact h

end TagScan

def tagScan (text : Text) : TagScan :=
  (segment text).foldl TagScan.runSpan ⟨{ text := text, spans := segment text }, []⟩

theorem replaceTags_eq (text : Text) :
    replaceTags text =
      ((tagScan text).draft.apply, tagRules.filterMap (TagRule.fix? (tagScan text).fired)) := rfl

theorem TagScan.accounts_foldl (text : Text) (spans : List Span) :
    Accounts text (spans.foldl runSpan ⟨{ text := text, spans := segment text }, []⟩) := by
  induction spans using List.reverseRecOn with
  | nil => exact ⟨⟨rfl, Draft.isSound_segment text, by simp, rfl⟩, [], by simp⟩
  | append_singleton others span ih =>
      rw [List.foldl_concat]
      exact ih.runSpan span

theorem accounts_tagScan (text : Text) : TagScan.Accounts text (tagScan text) :=
  TagScan.accounts_foldl text (segment text)

/-! ## The text without tags -/

def tagEdits (text : Text) : List Edit :=
  Edit.inTextOrder text.length (tagScan text).draft.edits

theorem isTagEdit_of_mem_tagEdits {text : Text} {edit : Edit} (h : edit ∈ tagEdits text) :
    IsTagEdit text edit :=
  (accounts_tagScan text).records.edits edit (Edit.mem_arrange.mp h).1

theorem follow_tagEdits (text : Text) : Edit.Follow (tagEdits text) :=
  Edit.follow_inTextOrder (accounts_tagScan text).records.sound.apart

theorem replaceTags_eq_splice (text : Text) :
    (replaceTags text).1 = Edit.splice text 0 (tagEdits text) := by
  have hrecords := (accounts_tagScan text).records
  rw [replaceTags_eq, hrecords.sound.apply_eq, hrecords.text, tagEdits]

theorem exists_fix_of_fired {fired : List Text} {rule : TagRule} (h : rule.name ∈ fired) :
    ∃ fix, rule.fix? fired = some fix ∧ fix.applied = true := by
  simp [TagRule.fix?, List.count_eq_zero, h]

theorem replaceTags_of_countApplied {text : Text}
    (h : Fix.countApplied (replaceTags text).2 = 0) : (replaceTags text).1 = text := by
  obtain ⟨hrecords, firings, hvalid, hfired, hedits⟩ := accounts_tagScan text
  simp only [replaceTags_eq, Fix.countApplied, List.countP_eq_zero] at h ⊢
  have hnone : firings = [] := by
    apply List.eq_nil_iff_forall_not_mem.mpr
    intro firing hfiring
    have hname : firing.rule.name ∈ (tagScan text).fired :=
      hfired ▸ List.mem_map_of_mem hfiring
    obtain ⟨fix, hfix, happlied⟩ := exists_fix_of_fired hname
    have hrule := (hvalid firing hfiring).rule_mem
    exact h fix (List.mem_filterMap.mpr ⟨firing.rule, hrule, hfix⟩) happlied
  rw [Draft.apply_of_nil (by simp [hedits, hnone]), hrecords.text]

end Repair

end LatexIntegrity
