import LatexIntegrity.Proofs.Region.FirstMatch

/-!
# Plain places and shielded regions

A scan of a text that keeps no plain region together: the places of the plain bytes,
each with what stands before it, and the shielded regions alone.
-/

namespace LatexIntegrity

structure BytePlace where
  context : LeftContext
  rest : Text
  deriving DecidableEq, Repr

def plainPlacesFrom (context : LeftContext) (text : Text) : List BytePlace :=
  match text with
  | [] => []
  | b :: rest =>
      match construct? context (b :: rest) with
      | some (_, construct) =>
          plainPlacesFrom (context.pushAll (b :: rest.take (construct.length - 1)))
            (rest.drop (construct.length - 1))
      | none => ⟨context, b :: rest⟩ :: plainPlacesFrom (context.push b) rest
  termination_by text.length
  decreasing_by all_goals simp only [List.length_drop, List.length_cons]; omega

def shieldedFrom (context : LeftContext) (text : Text) : List Region :=
  (regionsFrom context text).filter (·.kind.isShielded)

variable {context : LeftContext} {body rest : Text} {kind : RegionKind} {name : Text}

theorem plainPlacesFrom_construct (hbody : body ≠ [])
    (h : construct? context (body ++ rest) = some (kind, ⟨body.length, name⟩)) :
    plainPlacesFrom context (body ++ rest) = plainPlacesFrom (context.pushAll body) rest := by
  obtain ⟨b, others, rfl⟩ := List.exists_cons_of_ne_nil hbody
  rw [List.cons_append] at h ⊢
  rw [plainPlacesFrom, h]
  simp

theorem plainPlacesFrom_plain {b : UInt8} (h : construct? context (b :: rest) = none) :
    plainPlacesFrom context (b :: rest) =
      ⟨context, b :: rest⟩ :: plainPlacesFrom (context.push b) rest := by
  rw [plainPlacesFrom, h]

theorem mem_plainPlacesFrom_self {b : UInt8} (h : construct? context (b :: rest) = none) :
    ⟨context, b :: rest⟩ ∈ plainPlacesFrom context (b :: rest) := by
  rw [plainPlacesFrom_plain h]
  exact List.mem_cons_self

theorem mem_plainPlacesFrom_append
    (hbody : ∀ b ∈ body, b ≠ '%' ∧ b ≠ '$' ∧ b ≠ '\\') {place : BytePlace}
    (h : place ∈ plainPlacesFrom (context.pushAll body) rest) :
    place ∈ plainPlacesFrom context (body ++ rest) := by
  induction body generalizing context with
  | nil => exact h
  | cons b others ih =>
      obtain ⟨hpercent, hdollar, hbackslash⟩ := hbody b List.mem_cons_self
      rw [List.cons_append,
        plainPlacesFrom_plain (construct?_eq_none_of_head hpercent hdollar hbackslash _)]
      exact List.mem_cons_of_mem _ (ih (fun b hb => hbody b (List.mem_cons_of_mem _ hb)) h)

theorem head?_of_mem_plainPlacesFrom
    (hbody : ∀ b ∈ body, b ≠ '%' ∧ b ≠ '$' ∧ b ≠ '\\') {place : BytePlace}
    (h : place ∈ plainPlacesFrom context (body ++ rest)) :
    (∃ b ∈ body, place.rest.head? = some b) ∨
      place ∈ plainPlacesFrom (context.pushAll body) rest := by
  induction body generalizing context with
  | nil => exact .inr h
  | cons b others ih =>
      obtain ⟨hpercent, hdollar, hbackslash⟩ := hbody b List.mem_cons_self
      rw [List.cons_append,
        plainPlacesFrom_plain (construct?_eq_none_of_head hpercent hdollar hbackslash _)] at h
      rcases List.mem_cons.mp h with rfl | h
      · exact .inl ⟨b, List.mem_cons_self, rfl⟩
      · rcases ih (fun b hb => hbody b (List.mem_cons_of_mem _ hb)) h with ⟨c, hc, hhead⟩ | h
        · exact .inl ⟨c, List.mem_cons_of_mem _ hc, hhead⟩
        · exact .inr h

theorem mem_plainPlacesFrom_key (hbody : body ≠ [])
    (htail : ∀ b ∈ body.tail, b ≠ '%' ∧ b ≠ '$' ∧ b ≠ '\\')
    (hnone : construct? context (body ++ rest) = none) :
    ⟨context, body ++ rest⟩ ∈ plainPlacesFrom context (body ++ rest) ∧
      ∀ place ∈ plainPlacesFrom (context.pushAll body) rest,
        place ∈ plainPlacesFrom context (body ++ rest) := by
  obtain ⟨b, tail, rfl⟩ := List.exists_cons_of_ne_nil hbody
  rw [List.cons_append] at hnone ⊢
  rw [plainPlacesFrom_plain hnone]
  exact ⟨List.mem_cons_self,
    fun place hplace => List.mem_cons_of_mem _ (mem_plainPlacesFrom_append htail hplace)⟩

theorem shieldedFrom_nil : shieldedFrom context [] = [] := by
  rw [shieldedFrom, regionsFrom]
  rfl

theorem shieldedFrom_construct (hbody : body ≠ [])
    (h : construct? context (body ++ rest) = some (kind, ⟨body.length, name⟩)) :
    shieldedFrom context (body ++ rest) =
      ⟨kind, name, body⟩ :: shieldedFrom (context.pushAll body) rest := by
  have hkind := (construct?_spec h).1
  obtain ⟨b, others, rfl⟩ := List.exists_cons_of_ne_nil hbody
  rw [List.cons_append] at h ⊢
  rw [shieldedFrom, regionsFrom, h]
  simp [shieldedFrom, RegionKind.isShielded, hkind]

theorem shieldedFrom_plainRun (context : LeftContext) (text : Text) :
    shieldedFrom context text =
      shieldedFrom (context.pushAll (plainRun context text))
        (text.drop (plainRun context text).length) := by
  cases text with
  | nil => rfl
  | cons b rest =>
      cases hfound : construct? context (b :: rest) with
      | some found => simp [plainRun, hfound]
      | none =>
          have hrun : plainRun context (b :: rest) = b :: plainRun (context.push b) rest := by
            rw [plainRun, hfound]
            rfl
          rw [hrun, shieldedFrom, regionsFrom, hfound]
          rfl

theorem shieldedFrom_plain {b : UInt8} (h : construct? context (b :: rest) = none) :
    shieldedFrom context (b :: rest) = shieldedFrom (context.push b) rest := by
  have hrun : plainRun context (b :: rest) = b :: plainRun (context.push b) rest := by
    rw [plainRun, h]
    rfl
  rw [shieldedFrom_plainRun, shieldedFrom_plainRun (context.push b), hrun]
  rfl

theorem shieldedFrom_append (hbody : ∀ b ∈ body, b ≠ '%' ∧ b ≠ '$' ∧ b ≠ '\\') :
    shieldedFrom context (body ++ rest) = shieldedFrom (context.pushAll body) rest := by
  induction body generalizing context with
  | nil => rfl
  | cons b others ih =>
      obtain ⟨hpercent, hdollar, hbackslash⟩ := hbody b List.mem_cons_self
      rw [List.cons_append,
        shieldedFrom_plain (construct?_eq_none_of_head hpercent hdollar hbackslash _)]
      exact ih fun b hb => hbody b (List.mem_cons_of_mem _ hb)

theorem shieldedFrom_key (hbody : body ≠ [])
    (htail : ∀ b ∈ body.tail, b ≠ '%' ∧ b ≠ '$' ∧ b ≠ '\\')
    (hnone : construct? context (body ++ rest) = none) :
    shieldedFrom context (body ++ rest) = shieldedFrom (context.pushAll body) rest := by
  obtain ⟨b, others, rfl⟩ := List.exists_cons_of_ne_nil hbody
  rw [List.cons_append] at hnone ⊢
  rw [shieldedFrom_plain hnone]
  exact shieldedFrom_append htail

theorem exists_construct_of_mem_shieldedFrom {region : Region} {text : Text}
    (h : region ∈ shieldedFrom context text) :
    ∃ context rest, construct? context (region.body ++ rest) =
      some (region.kind, ⟨region.body.length, region.name⟩) := by
  obtain ⟨hregion, hshielded⟩ := List.mem_filter.mp h
  refine regionsFrom_induction (motive := fun _ _ regions => region ∈ regions →
    ∃ context rest, construct? context (region.body ++ rest) =
      some (region.kind, ⟨region.body.length, region.name⟩))
    ?_ ?_ ?_ context text hregion
  · exact fun _ => nofun
  · intro context body rest kind name _ hfound ih hregion
    rcases List.mem_cons.mp hregion with rfl | hregion
    · exact ⟨context, rest, hfound⟩
    · exact ih hregion
  · intro context run rest _ _ ih hregion
    rcases List.mem_cons.mp hregion with rfl | hregion
    · cases hshielded
    · exact ih hregion

/-! ## Spans -/

def BytePlace.of (text : Text) (offset : Nat) : BytePlace :=
  ⟨.after (text.take offset), text.drop offset⟩

def Span.places (text : Text) (span : Span) : List BytePlace :=
  (List.range' span.start (span.stop - span.start)).map (BytePlace.of text)

def Span.region (text : Text) (span : Span) : Region := ⟨span.kind, span.name, span.read text⟩

def plainPlaces (text : Text) : List BytePlace :=
  ((segment text).filter fun span => !span.isShielded).flatMap (Span.places text)

def shieldedRegions (text : Text) : List Region :=
  ((segment text).filter (·.isShielded)).map (Span.region text)

theorem Span.read_append (before body after : Text) (kind : RegionKind) (name : Text) :
    Span.read (before ++ (body ++ after))
      ⟨before.length, before.length + body.length, kind, name⟩ = body := by
  have hinside : ¬(before ++ (body ++ after)).length < before.length := by simp
  rw [Span.read, Span.read?, if_neg hinside]
  simp [Span.length, wordDifference]

theorem BytePlace.of_append (before rest : Text) (offset : Nat) :
    BytePlace.of (before ++ rest) (before.length + offset) =
      ⟨(LeftContext.after before).pushAll (rest.take offset), rest.drop offset⟩ := by
  rw [BytePlace.of, List.take_length_add_append, List.drop_length_add_append, LeftContext.after,
    LeftContext.pushAll_append]
  rfl

theorem plainPlacesFrom_plainRun (before rest : Text) :
    plainPlacesFrom (.after before) rest =
      Span.places (before ++ rest) ⟨before.length,
        before.length + (plainRun (.after before) rest).length, .plain, []⟩ ++
          plainPlacesFrom (.after (before ++ plainRun (.after before) rest))
            (rest.drop (plainRun (.after before) rest).length) := by
  induction rest generalizing before with
  | nil => simp [plainRun, Span.places, plainPlacesFrom]
  | cons b rest ih =>
      cases hfound : construct? (.after before) (b :: rest) with
      | some found => simp [plainRun, hfound, Span.places]
      | none =>
          have hrun : plainRun (.after before) (b :: rest) =
              b :: plainRun (.after (before ++ [b])) rest := by
            rw [plainRun, hfound, LeftContext.after_concat]
            rfl
          have hhere := BytePlace.of_append before (b :: rest) 0
          rw [plainPlacesFrom_plain hfound, ← LeftContext.after_concat, ih, hrun]
          simp only [Span.places, List.length_cons, Nat.add_sub_cancel_left, List.length_append,
            List.append_assoc, List.singleton_append, List.drop_succ_cons]
          rw [List.range'_succ, List.map_cons, List.cons_append]
          exact congrArg (· :: _) hhere.symm

theorem plainPlaces_eq (text : Text) : plainPlaces text = plainPlacesFrom .initial text := by
  refine @Region.spans_induction (fun before rest spans =>
    (spans.filter fun span => !span.isShielded).flatMap (Span.places (before ++ rest)) =
      plainPlacesFrom (.after before) rest) ?_ ?_ ?_ [] text
  · intro before
    rw [plainPlacesFrom]
    rfl
  · intro before body rest kind name spans hbody hfound hspans
    have hkind := (construct?_spec hfound).1
    rw [List.append_assoc] at hspans
    rw [List.filter_cons_of_neg (by simp [Span.isShielded, RegionKind.isShielded, hkind]), hspans,
      plainPlacesFrom_construct hbody hfound, LeftContext.after_append]
  · intro before run rest spans _ hrun hspans
    rw [List.append_assoc] at hspans
    rw [List.filter_cons_of_pos rfl, List.flatMap_cons, hspans,
      plainPlacesFrom_plainRun before (run ++ rest), ← hrun, List.drop_left]

theorem shieldedRegions_eq (text : Text) : shieldedRegions text = shieldedFrom .initial text := by
  refine @Region.spans_induction (fun before rest spans =>
    (spans.filter (·.isShielded)).map (Span.region (before ++ rest)) =
      shieldedFrom (.after before) rest) ?_ ?_ ?_ [] text
  · intro before
    rw [shieldedFrom_nil]
    rfl
  · intro before body rest kind name spans hbody hfound hspans
    have hkind := (construct?_spec hfound).1
    rw [List.append_assoc] at hspans
    rw [List.filter_cons_of_pos (by simp [Span.isShielded, RegionKind.isShielded, hkind]),
      List.map_cons, hspans, shieldedFrom_construct hbody hfound, Span.region, Span.read_append,
      LeftContext.after_append]
  · intro before run rest spans _ hrun hspans
    rw [List.append_assoc] at hspans
    rw [List.filter_cons_of_neg (by simp [Span.isShielded, RegionKind.isShielded]), hspans,
      shieldedFrom_plainRun (.after before), ← hrun, List.drop_left, LeftContext.after_append]

end LatexIntegrity
