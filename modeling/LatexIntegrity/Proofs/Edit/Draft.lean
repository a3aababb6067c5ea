import LatexIntegrity.Proofs.Edit.Order
import LatexIntegrity.Proofs.Span.Tiling

/-!
# What a draft records

Whatever is asked of a draft, the edits it records keep apart and leave the shielded
bytes alone.  Applying them therefore keeps every shielded span, and figures are the only
ones into which something is inserted.
-/

namespace LatexIntegrity

theorem Edit.isApart_of_conflicts {edit : Edit} {offset length : Nat} (replacement : Text)
    (h : edit.conflicts offset length = false) : edit.IsApart ⟨offset, length, replacement⟩ := by
  unfold conflicts splits isInsertion at h
  simp only [IsApart]
  split at h
  · next hlength =>
      simp only [beq_iff_eq] at hlength
      simp only [Bool.and_eq_false_iff, decide_eq_false_iff_not] at h
      omega
  · split at h
    · next hlength =>
        simp only [beq_iff_eq] at hlength
        simp only [Bool.and_eq_false_iff, decide_eq_false_iff_not] at h
        omega
    · simp only [Bool.and_eq_false_iff, decide_eq_false_iff_not] at h
      omega

namespace Draft

theorem apply_of_nil {draft : Draft} (h : draft.edits = []) : draft.apply = draft.text := by
  simp [apply, h, Edit.applicationOrder]

inductive Request where
  | replace (offset length : Nat) (replacement : Text)
  | insertAtLine (offset : Nat) (insertion : Text)
  deriving DecidableEq, Repr

namespace Request

def edit : Request → Edit
  | replace offset length replacement => ⟨offset, length, replacement⟩
  | insertAtLine offset insertion => ⟨offset, 0, insertion⟩

def perform? (draft : Draft) : Request → Option Draft
  | replace offset length replacement => draft.replace? offset length replacement
  | insertAtLine offset insertion => draft.insertAtLine? offset insertion

end Request

def perform (draft : Draft) (request : Request) : Draft := (request.perform? draft).getD draft

def performAll (draft : Draft) (requests : List Request) : Draft := requests.foldl perform draft

/-- The requests that are not refused when they are performed one after the other. -/
def accepted (draft : Draft) : List Request → List Request
  | [] => []
  | request :: rest =>
      match request.perform? draft with
      | some next => request :: next.accepted rest
      | none => draft.accepted rest

/-- The edit of a request changes no byte of a shielded span. -/
structure Request.IsSafe (text : Text) (spans : List Span) (request : Request) : Prop where
  bound : request.edit.offset + request.edit.length ≤ text.length
  plain : 0 < request.edit.length → ∃ span ∈ spans, span.kind = .plain ∧
    span.start ≤ request.edit.offset ∧ request.edit.offset + request.edit.length ≤ span.stop
  point : request.edit.length = 0 → ∀ span ∈ spans, span.kind ≠ .plain →
    span.start < request.edit.offset → request.edit.offset < span.stop →
      request = .insertAtLine request.edit.offset request.edit.replacement ∧
        isLineStart ⟨text, spans, []⟩ request.edit.offset = true ∧
          span.isEnvironment Environment.isFigure = true

theorem Request.IsSafe.untouched {text : Text} {spans : List Span} {request : Request}
    (h : request.IsSafe text spans) (htiles : Span.Tiles text.length 0 spans) {span : Span}
    (hspan : span ∈ spans) (hkind : span.kind ≠ .plain)
    (hfigure : span.isEnvironment Environment.isFigure = false) :
    request.edit.offset + request.edit.length ≤ span.start ∨
      span.stop ≤ request.edit.offset := by
  by_cases hlength : request.edit.length = 0
  · by_contra htouched
    have hinside := h.point hlength span hspan hkind (by omega) (by omega)
    simp [hfigure] at hinside
  · obtain ⟨plain, hplain, hplainKind, hstart, hstop⟩ := h.plain (by omega)
    have hne : plain ≠ span := by
      rintro rfl
      exact hkind hplainKind
    have := htiles.apart hplain hspan hne
    omega

/-! ## One request -/

section

variable {draft next : Draft} {request : Request}

theorem isApart_of_isTaken {offset length : Nat} (replacement : Text)
    (h : draft.isTaken offset length = false) :
    ∀ edit ∈ draft.edits, edit.IsApart ⟨offset, length, replacement⟩ := by
  intro edit hedit
  apply Edit.isApart_of_conflicts
  simpa using List.any_eq_false.mp h edit hedit

theorem bound_of_isReplaceable {offset length : Nat}
    (h : draft.isReplaceable offset length = true) : offset + length ≤ draft.text.length := by
  unfold isReplaceable at h
  split at h
  · cases h
  · next hbound =>
      simp only [Bool.or_eq_true, decide_eq_true_eq] at hbound
      omega

theorem plain_of_isReplaceable {offset length : Nat}
    (h : draft.isReplaceable offset length = true) (hlength : 0 < length) :
    ∃ span ∈ draft.spans, span.kind = .plain ∧ span.start ≤ offset ∧
      offset + length ≤ span.stop := by
  unfold isReplaceable at h
  split at h
  · cases h
  · rw [if_neg (by simp; omega), Option.any_eq_true] at h
    obtain ⟨span, hfind, hplain⟩ := h
    obtain ⟨hspan, hcontains⟩ := Span.mem_of_findAt? hfind
    rw [Span.contains_iff] at hcontains
    simp only [Bool.and_eq_true, beq_iff_eq, decide_eq_true_eq] at hplain
    exact ⟨span, hspan, hplain.1, hcontains.1, hplain.2⟩

theorem not_inside_of_isReplaceable (htiles : Span.Tiles draft.text.length 0 draft.spans)
    {offset : Nat} (h : draft.isReplaceable offset 0 = true) {span : Span}
    (hspan : span ∈ draft.spans) (hkind : span.kind ≠ .plain) (hstart : span.start < offset) :
    span.stop ≤ offset := by
  by_contra hstop
  unfold isReplaceable at h
  split at h
  · cases h
  · have hbounds := htiles.bounds hspan
    have hfind : Span.findAt? draft.spans offset = some span := by
      rw [htiles.findAt?_eq_some_iff]
      refine ⟨hspan, ?_⟩
      rw [Span.contains_iff]
      omega
    simp only [beq_self_eq_true, if_true, hfind, Option.any_some, Bool.or_eq_true, beq_iff_eq,
      hkind, false_or] at h
    omega

theorem Request.perform?_spec (htiles : Span.Tiles draft.text.length 0 draft.spans)
    (h : request.perform? draft = some next) :
    next = draft.record request.edit ∧ request.IsSafe draft.text draft.spans ∧
      ∀ edit ∈ draft.edits, edit.IsApart request.edit := by
  cases request with
  | replace offset length replacement =>
      simp only [perform?, replace?, admits, Option.ite_none_right_eq_some, Bool.and_eq_true,
        Bool.not_eq_true', Option.some.injEq] at h
      obtain ⟨⟨hreplaceable, htaken⟩, rfl⟩ := h
      refine ⟨rfl, ⟨?_, ?_, ?_⟩, isApart_of_isTaken replacement htaken⟩
      · exact bound_of_isReplaceable hreplaceable
      · exact plain_of_isReplaceable hreplaceable
      · intro hlength span hspan hkind hstart hstop
        simp only [edit] at hlength hstart hstop
        subst hlength
        have := not_inside_of_isReplaceable htiles hreplaceable hspan hkind hstart
        omega
  -- At the start of a line an insertion may also stand inside a figure.
  | insertAtLine offset insertion =>
      simp only [perform?, insertAtLine?, Option.ite_none_right_eq_some, Bool.and_eq_true,
        Bool.not_eq_true', Bool.or_eq_true, Option.some.injEq] at h
      obtain ⟨⟨⟨hline, htaken⟩, hplace⟩, rfl⟩ := h
      refine ⟨rfl, ⟨?_, ?_, ?_⟩, isApart_of_isTaken insertion htaken⟩
      · simp only [isLineStart, Bool.and_eq_true, decide_eq_true_eq] at hline
        exact hline.1
      · exact fun hlength => absurd hlength (Nat.lt_irrefl 0)
      · intro _ span hspan hkind hstart hstop
        refine ⟨rfl, hline, ?_⟩
        simp only [edit] at hstart hstop
        rcases hplace with hplace | hfigure
        · have := not_inside_of_isReplaceable htiles hplace hspan hkind hstart
          omega
        · have hfind : Span.findAt? draft.spans offset = some span := by
            rw [htiles.findAt?_eq_some_iff]
            refine ⟨hspan, ?_⟩
            rw [Span.contains_iff]
            omega
          simpa [isInFigure, hfind] using hfigure

end

/-- The spans tile the text, and the edits lie in it and keep apart. -/
structure IsSound (draft : Draft) : Prop where
  tiles : Span.Tiles draft.text.length 0 draft.spans
  bound : ∀ edit ∈ draft.edits, edit.offset + edit.length ≤ draft.text.length
  apart : draft.edits.Pairwise Edit.IsApart

theorem isSound_segment (text : Text) : IsSound { text := text, spans := segment text } :=
  ⟨tiles_segment text, by simp, List.Pairwise.nil⟩

theorem IsSound.perform? {draft next : Draft} {request : Request} (h : draft.IsSound)
    (hperform : request.perform? draft = some next) : next.IsSound := by
  obtain ⟨rfl, hsafe, hapart⟩ := Request.perform?_spec h.tiles hperform
  refine ⟨h.tiles, ?_, List.pairwise_append.mpr ⟨h.apart, List.pairwise_singleton _ _, ?_⟩⟩
  · intro edit hedit
    rcases List.mem_append.mp hedit with hedit | hedit
    · exact h.bound edit hedit
    · rw [List.mem_singleton.mp hedit]
      exact hsafe.bound
  · intro edit hedit other hother
    rw [List.mem_singleton.mp hother]
    exact hapart edit hedit

theorem IsSound.replace? {draft next : Draft} {offset length : Nat} {replacement : Text}
    (h : draft.IsSound) (hreplace : draft.replace? offset length replacement = some next) :
    next.IsSound ∧ next = draft.record ⟨offset, length, replacement⟩ := by
  have hperform : (Request.replace offset length replacement).perform? draft = some next :=
    hreplace
  exact ⟨h.perform? hperform, (Request.perform?_spec h.tiles hperform).1⟩

theorem IsSound.insertAtLine? {draft next : Draft} {offset : Nat} {insertion : Text}
    (h : draft.IsSound) (hinsert : draft.insertAtLine? offset insertion = some next) :
    next.IsSound ∧ next = draft.record ⟨offset, 0, insertion⟩ ∧
      draft.isLineStart offset = true := by
  have hperform : (Request.insertAtLine offset insertion).perform? draft = some next := hinsert
  refine ⟨h.perform? hperform, (Request.perform?_spec h.tiles hperform).1, ?_⟩
  simp only [Draft.insertAtLine?, Option.ite_none_right_eq_some, Bool.and_eq_true] at hinsert
  exact hinsert.1.1.1

theorem replace?_of_le {draft : Draft} {offset length : Nat} (replacement : Text)
    (hreplaceable : draft.isReplaceable offset length = true)
    (hbefore : ∀ edit ∈ draft.edits, edit.offset + edit.length ≤ offset) :
    draft.replace? offset length replacement =
      some (draft.record ⟨offset, length, replacement⟩) := by
  have hfree : draft.isTaken offset length = false := by
    apply List.any_eq_false.mpr
    intro edit hedit
    have hle := hbefore edit hedit
    unfold Edit.conflicts Edit.splits
    split
    · simp
      omega
    · split <;> simp <;> omega
  simp [replace?, admits, hreplaceable, hfree]

/-! ## Many requests -/

theorem performAll_spec {draft : Draft} (h : draft.IsSound) (requests : List Request) :
    draft.performAll requests =
        { draft with edits := draft.edits ++ (draft.accepted requests).map Request.edit } ∧
      (∀ request ∈ draft.accepted requests, request.IsSafe draft.text draft.spans) ∧
      (draft.performAll requests).IsSound := by
  induction requests generalizing draft with
  | nil => simpa [performAll, accepted] using h
  | cons request rest ih =>
      cases hperform : request.perform? draft with
      | none =>
          have hall : draft.performAll (request :: rest) = draft.performAll rest := by
            simp [performAll, perform, hperform]
          simpa [hall, accepted, hperform] using ih h
      | some next =>
          have hnext := h.perform? hperform
          obtain ⟨rfl, hsafe, -⟩ := Request.perform?_spec h.tiles hperform
          have hall : draft.performAll (request :: rest) =
              (draft.record request.edit).performAll rest := by
            simp [performAll, perform, hperform]
          obtain ⟨hdraft, hrest, hsound⟩ := ih hnext
          simp only [accepted, hperform]
          rw [hall]
          refine ⟨?_, List.forall_mem_cons.mpr ⟨hsafe, hrest⟩, hsound⟩
          rw [hdraft]
          simp [record]

theorem IsSound.apply_eq {draft : Draft} (h : draft.IsSound) :
    draft.apply =
      Edit.splice draft.text 0 (Edit.inTextOrder draft.text.length draft.edits) := by
  have hoffsets : ∀ edit ∈ draft.edits, edit.offset ≤ draft.text.length := by
    intro edit hedit
    have := h.bound edit hedit
    omega
  unfold apply
  rw [Edit.applicationOrder_eq hoffsets, List.foldl_reverse,
    Edit.foldr_apply_eq (Edit.follow_inTextOrder h.apart) (fun _ _ => Nat.zero_le _)]
  · rfl
  · intro edit hedit
    exact h.bound edit (Edit.mem_arrange.mp hedit).1

/--
The edits that a draft records change plain bytes alone and keep apart, those of refused
requests are not among them, and applied together they are spliced into the text: at each
offset the insertions as they were recorded, and behind them the replacement.  The text
still holds the shielded spans, unless something was inserted into a figure.
-/
theorem apply_performAll (text : Text) (spans : List Span)
    (hspans : partitionFault? spans text.length = none) (requests : List Request) :
    let start : Draft := ⟨text, spans, []⟩
    let draft := start.performAll requests
    (∀ edit ∈ draft.edits, 0 < edit.length → ∃ span ∈ spans, span.kind = .plain ∧
      span.start ≤ edit.offset ∧ edit.offset + edit.length ≤ span.stop) ∧
    (draft.edits.Pairwise fun first second => 0 < first.length → 0 < second.length →
      first.offset + first.length ≤ second.offset ∨
        second.offset + second.length ≤ first.offset) ∧
    (∀ point ∈ draft.edits, point.length = 0 → ∀ edit ∈ draft.edits,
      ¬(edit.offset < point.offset ∧ point.offset < edit.offset + edit.length)) ∧
    (∀ request ∈ start.accepted requests, request.edit.length = 0 →
      ∀ span ∈ spans, span.kind ≠ .plain →
        span.start < request.edit.offset → request.edit.offset < span.stop →
          request = .insertAtLine request.edit.offset request.edit.replacement ∧
            start.isLineStart request.edit.offset = true ∧
              span.isEnvironment Environment.isFigure = true) ∧
    draft.edits = (start.accepted requests).map Request.edit ∧
    draft.apply = Edit.splice text 0 (Edit.inTextOrder text.length draft.edits) ∧
    Text.HoldsInOrder
      ((spans.filter fun span =>
          span.isShielded && !span.isEnvironment Environment.isFigure).map (Span.read text))
      draft.apply := by
  intro start draft
  have htiles := Span.tiles_of_partitionFault? hspans
  obtain ⟨hdraft, hsafe, hsound⟩ :=
    @performAll_spec start ⟨htiles, by simp [start], List.Pairwise.nil⟩ requests
  have hapart : draft.edits.Pairwise Edit.IsApart := hsound.apart
  have hedits : draft.edits = (start.accepted requests).map Request.edit := by
    simpa [start] using congrArg Draft.edits hdraft
  have htext : draft.text = text := congrArg Draft.text hdraft
  have happly : draft.apply = Edit.splice text 0 (Edit.inTextOrder text.length draft.edits) := by
    rw [hsound.apply_eq, htext]
  refine ⟨?_, ?_, ?_, ?_, hedits, happly, ?_⟩
  · rw [hedits, List.forall_mem_map]
    exact fun request hrequest => (hsafe request hrequest).plain
  · exact hapart.imp fun h _ _ => h
  · intro point hpoint hlength edit hedit hinside
    have hne : point ≠ edit := by
      rintro rfl
      omega
    have := hapart.forall hpoint hedit hne
    unfold Edit.IsApart at this
    omega
  · exact fun request hrequest => (hsafe request hrequest).point
  · -- No accepted edit touches these spans, so they come out of the splice in their order.
    have hread : ∀ span ∈ spans, span.read text = text.slice span.start span.stop := by
      intro span hspan
      have hbounds := htiles.bounds hspan
      exact Span.read_eq_slice (by omega) (by omega)
    rw [happly, List.map_congr_left fun span hspan => hread span (List.mem_of_mem_filter hspan)]
    apply Edit.holdsInOrder_splice (Edit.follow_inTextOrder hapart) (htiles.pairwise.filter _)
    · intro span hspan
      have hbounds := htiles.bounds (List.mem_of_mem_filter hspan)
      omega
    · intro span hspan edit hedit
      rw [Edit.inTextOrder, Edit.mem_arrange, hedits, List.mem_map] at hedit
      obtain ⟨⟨request, hrequest, rfl⟩, -⟩ := hedit
      simp only [List.mem_filter, Bool.and_eq_true, Bool.not_eq_true', Span.isShielded,
        RegionKind.isShielded, bne_iff_ne] at hspan
      exact (hsafe request hrequest).untouched htiles hspan.1 hspan.2.1 hspan.2.2

/-- Three requests are accepted; the last one asks for a change of shielded bytes. -/
theorem apply_performAll_figure :
    let text : Text := "a\\begin\x7bfigure\x7d\nb\\end\x7bfigure\x7dc$x$"
    let draft := performAll ⟨text, segment text, []⟩
      [.replace 29 1 "C", .insertAtLine 16 "% ", .replace 29 0 "!", .replace 31 1 "y"]
    partitionFault? (segment text) text.length = none ∧
      draft.apply = Edit.splice text 0 (Edit.inTextOrder text.length draft.edits) ∧
      Edit.splice text 0 (Edit.inTextOrder text.length draft.edits) =
        "a\\begin\x7bfigure\x7d\n% b\\end\x7bfigure\x7d!C$x$" :=
  ⟨by decide +kernel, (apply_performAll _ _ (by decide +kernel) _).2.2.2.2.2.1,
    by decide +kernel⟩

end Draft

end LatexIntegrity
