import LatexIntegrity.Command.Document
import LatexIntegrity.Proofs.Region.Precedence

/-!
# Segmentation is the first-match scan

Every recognizer makes progress and stays inside the text.  The spans of a text
are therefore a partition of it in which each shielded span is the first match at
its start, and in a plain span nothing matches anywhere.
-/

namespace LatexIntegrity

namespace Recognizer

def foundAt? (recognize : Recognizer) (text : Text) (offset : Nat) : Option Construct :=
  recognize (.after (text.take offset)) (text.drop offset)

end Recognizer

variable {context : LeftContext} {text : Text}

/-! ## Plain bytes -/

theorem construct?_eq_none_of_lt_plainRun {offset : Nat}
    (h : offset < (plainRun context text).length) :
    construct? (context.pushAll (text.take offset)) (text.drop offset) = none := by
  induction text generalizing context offset with
  | nil => simp [plainRun] at h
  | cons b rest ih =>
      rw [plainRun] at h
      split at h
      · simp at h
      · next hnone =>
          cases offset with
          | zero => simpa using hnone
          | succ offset => simpa using ih (by simpa using h)

theorem construct?_behind_plainRun (context : LeftContext) (text : Text)
    (h : text.drop (plainRun context text).length ≠ []) :
    (construct? (context.pushAll (plainRun context text))
      (text.drop (plainRun context text).length)).isSome = true := by
  induction text generalizing context with
  | nil => simp at h
  | cons b rest ih =>
      rw [plainRun] at h ⊢
      split
      · next hsome => simpa using hsome
      · next hnone =>
          rw [if_neg hnone] at h
          simpa using ih _ (by simpa using h)

theorem isSome_construct?_behind {context : LeftContext} {run rest : Text}
    (hrun : run = plainRun context (run ++ rest)) (hrest : rest ≠ []) :
    (construct? (context.pushAll run) rest).isSome = true := by
  have hsome := construct?_behind_plainRun context (run ++ rest)
  rw [← hrun, List.drop_left] at hsome
  exact hsome hrest

/-- No construct begins in the bytes of `run`, where `rest` follows them. -/
def IsPlainRun (context : LeftContext) (run rest : Text) : Prop :=
  ∀ offset < run.length,
    construct? (context.pushAll (run.take offset)) (run.drop offset ++ rest) = none

namespace IsPlainRun

variable {run rest : Text}

theorem nil : IsPlainRun context [] rest := fun _ h => absurd h (Nat.not_lt_zero _)

theorem of_plainRun (h : run = plainRun context (run ++ rest)) : IsPlainRun context run rest := by
  intro offset hoffset
  have hnone := construct?_eq_none_of_lt_plainRun (h ▸ hoffset)
  rwa [List.take_append_of_le_length (Nat.le_of_lt hoffset),
    List.drop_append_of_le_length (Nat.le_of_lt hoffset)] at hnone

theorem head (h : IsPlainRun context run rest) (hrun : run ≠ []) :
    construct? context (run ++ rest) = none :=
  h 0 (List.length_pos_iff.mpr hrun)

theorem behind {first : Text} (h : IsPlainRun context (first ++ run) rest) :
    IsPlainRun (context.pushAll first) run rest := by
  intro offset hoffset
  have hnone := h (first.length + offset) (by rw [List.length_append]; omega)
  rwa [List.take_length_add_append, List.drop_length_add_append,
    LeftContext.pushAll_append] at hnone

theorem tail {b : UInt8} (h : IsPlainRun context (b :: run) rest) :
    IsPlainRun (context.push b) run rest :=
  behind (show IsPlainRun context ([b] ++ run) rest from h)

end IsPlainRun

/-! ## The partition -/

theorem partitionFaultFrom?_cons {length index : Nat} {plainBefore : Bool} {span : Span}
    (hpos : span.start < span.stop) (hplain : (plainBefore && span.kind == .plain) = false)
    (others : List Span) :
    partitionFaultFrom? length index span.start plainBefore (span :: others) =
      partitionFaultFrom? length (index + 1) span.stop (span.kind == .plain) others := by
  rw [partitionFaultFrom?, if_neg (by simp), if_neg (Nat.not_le_of_lt hpos), hplain,
    if_neg Bool.false_ne_true]

theorem partitionFaultFrom?_regionsFrom (context : LeftContext) (text : Text)
    (index start : Nat) (plainBefore : Bool)
    (hbefore : plainBefore = true → text ≠ [] →
      (construct? context text).isSome = true) :
    partitionFaultFrom? (start + text.length) index start plainBefore
      (Region.spans start (regionsFrom context text)) = none := by
  fun_induction regionsFrom context text generalizing index start plainBefore with
  | case1 => simp [Region.spans, partitionFaultFrom?]
  | case2 context b rest kind construct hfound others ih =>
      obtain ⟨hkind, hpos, hfit⟩ := construct?_spec hfound
      have hlength : start + (b :: rest).length =
          start + (b :: others).length + (rest.drop (construct.length - 1)).length := by
        simp only [others, List.length_cons, List.length_take, List.length_drop]
        omega
      have hkind' : (kind == .plain) = false := by simp [hkind]
      rw [hlength]
      refine (partitionFaultFrom?_cons (Nat.lt_add_of_pos_right (Nat.succ_pos _))
        (by simp [hkind']) _).trans ?_
      exact ih _ _ _ (by simp [hkind'])
  | case3 context b rest hnone others ih =>
      have hlength : start + (b :: rest).length =
          start + (b :: others).length + (rest.drop others.length).length := by
        have hsplit := congrArg List.length (plainRun_append_drop (context.push b) rest)
        rw [List.length_append] at hsplit
        simp only [others, List.length_cons]
        omega
      have hfirst : plainBefore = false := by
        cases plainBefore with
        | false => rfl
        | true => simpa [hnone] using hbefore rfl
      rw [hlength]
      refine (partitionFaultFrom?_cons (Nat.lt_add_of_pos_right (Nat.succ_pos _))
        (by simp [hfirst]) _).trans ?_
      exact ih _ _ _ fun _ => construct?_behind_plainRun (context.push b) rest

theorem partitionFault?_segment_eq_none (text : Text) :
    partitionFault? (segment text) text.length = none := by
  rw [partitionFault?]
  cases text with
  | nil => rw [segment, regions, regionsFrom]; rfl
  | cons b rest =>
      have hfault := partitionFaultFrom?_regionsFrom .initial (b :: rest) 0 0 false (by simp)
      have hspans : (segment (b :: rest)).isEmpty = false := by
        rw [segment, regions, regionsFrom]
        split <;> rfl
      rw [hspans, if_neg Bool.false_ne_true]
      rwa [Nat.zero_add] at hfault

/-! ## The scan -/

/--
A span is what a first-match scan finds.  At the start of a shielded span the
recognizers before one of the table decline, and that one finds the span; in a plain
span no recognizer finds anything.
-/
structure Span.IsFirstMatch (text : Text) (span : Span) : Prop where
  found : span.isShielded = true →
    ∃ before recognize after,
      Recognizer.table = before ++ (span.kind, recognize) :: after ∧
        (∀ entry ∈ before, entry.2.foundAt? text span.start = none) ∧
          recognize.foundAt? text span.start = some ⟨span.stop - span.start, span.name⟩
  declined : span.isShielded = false →
    ∀ offset, span.start ≤ offset → offset < span.stop →
      ∀ entry ∈ Recognizer.table, entry.2.foundAt? text offset = none

theorem Recognizer.foundAt?_add (recognize : Recognizer) (before rest : Text)
    (offset : Nat) :
    recognize.foundAt? (before ++ rest) (before.length + offset) =
      recognize ((LeftContext.after before).pushAll (rest.take offset)) (rest.drop offset) := by
  rw [foundAt?, List.take_length_add_append, List.drop_length_add_append, LeftContext.after,
    LeftContext.pushAll_append]
  rfl

theorem Span.isFirstMatch_plain {before rest run : Text}
    (hrun : run = plainRun (.after before) rest) (name : Text) :
    IsFirstMatch (before ++ rest)
      ⟨before.length, before.length + run.length, .plain, name⟩ := by
  refine ⟨nofun, ?_⟩
  intro _ offset hstart hstop entry hentry
  obtain ⟨inner, rfl⟩ := Nat.exists_eq_add_of_le hstart
  have hinner : inner < (plainRun (.after before) rest).length := by
    rw [← hrun]
    exact Nat.lt_of_add_lt_add_left hstop
  rw [Recognizer.foundAt?_add]
  exact Recognizer.firstConstruct?_eq_none_iff.mp
    (construct?_eq_none_of_lt_plainRun hinner) entry hentry

theorem Span.isFirstMatch_construct {before rest : Text} {kind : RegionKind}
    {construct : Construct}
    (hfound : construct? (.after before) rest = some (kind, construct)) :
    IsFirstMatch (before ++ rest)
      ⟨before.length, before.length + construct.length, kind, construct.name⟩ := by
  obtain ⟨earlier, recognize, later, htable, hearlier, hrecognize⟩ :=
    Recognizer.firstConstruct?_eq_some hfound
  have hkind := (construct?_spec hfound).1
  have hhere : ∀ recognize : Recognizer,
      recognize.foundAt? (before ++ rest) before.length =
        recognize (.after before) rest :=
    fun recognize => recognize.foundAt?_add before rest 0
  refine ⟨fun _ => ⟨earlier, recognize, later, htable, ?_, ?_⟩, ?_⟩
  · intro entry hentry
    rw [hhere]
    exact hearlier entry hentry
  · rw [hhere, Nat.add_sub_cancel_left]
    exact hrecognize
  · intro hplain
    simp [isShielded, RegionKind.isShielded, hkind] at hplain

/--
What holds of the regions of a text if it holds of no regions, and a shielded or a plain
region in front keeps it.
-/
theorem regionsFrom_induction {motive : LeftContext → Text → List Region → Prop}
    (nil : ∀ context, motive context [] [])
    (shielded : ∀ {context body rest kind name}, body ≠ [] →
      construct? context (body ++ rest) = some (kind, ⟨body.length, name⟩) →
        motive (context.pushAll body) rest (regionsFrom (context.pushAll body) rest) →
          motive context (body ++ rest)
            (⟨kind, name, body⟩ :: regionsFrom (context.pushAll body) rest))
    (plain : ∀ {context run rest}, run ≠ [] → run = plainRun context (run ++ rest) →
      motive (context.pushAll run) rest (regionsFrom (context.pushAll run) rest) →
        motive context (run ++ rest) (⟨.plain, [], run⟩ :: regionsFrom (context.pushAll run) rest))
    (context : LeftContext) (text : Text) : motive context text (regionsFrom context text) := by
  fun_induction regionsFrom context text with
  | case1 context => exact nil context
  | case2 context b rest kind construct hfound others ih =>
      obtain ⟨length, name⟩ := construct
      have hfit := (construct?_spec hfound).2
      have hbody : (b :: others).length = length := by
        simp only [others, List.length_cons, List.length_take] at hfit ⊢
        omega
      have hsplit : b :: others ++ rest.drop (length - 1) = b :: rest := by simp [others]
      have hfound' : construct? context (b :: others ++ rest.drop (length - 1)) =
          some (kind, ⟨(b :: others).length, name⟩) := by rw [hsplit, hbody, hfound]
      have hwhole := shielded (List.cons_ne_nil b others) hfound' ih
      rwa [hsplit] at hwhole
  | case3 context b rest hnone others ih =>
      have hsplit : b :: others ++ rest.drop others.length = b :: rest := by
        simp [others, plainRun_append_drop]
      have hrun : b :: others = plainRun context (b :: rest) := by
        rw [plainRun, hnone]
        rfl
      have hwhole := plain (List.cons_ne_nil b others) (by rw [hsplit, hrun]) ih
      rwa [hsplit] at hwhole

theorem regionsFrom_eq_cons {region : Region} {others : List Region}
    (h : regionsFrom context text = region :: others) :
    ∃ rest, text = region.body ++ rest ∧ region.body ≠ [] ∧
      regionsFrom (context.pushAll region.body) rest = others ∧
        (region.kind.isShielded = true → construct? context (region.body ++ rest) =
          some (region.kind, ⟨region.body.length, region.name⟩)) ∧
            (region.kind.isShielded = false →
              region.body = plainRun context (region.body ++ rest)) := by
  refine regionsFrom_induction (motive := fun context text regions => regions = region :: others →
    ∃ rest, text = region.body ++ rest ∧ region.body ≠ [] ∧
      regionsFrom (context.pushAll region.body) rest = others ∧
        (region.kind.isShielded = true → construct? context (region.body ++ rest) =
          some (region.kind, ⟨region.body.length, region.name⟩)) ∧
            (region.kind.isShielded = false →
              region.body = plainRun context (region.body ++ rest)))
    ?_ ?_ ?_ context text h
  · exact fun _ => nofun
  · intro context body rest kind name hbody hfound _ h
    obtain ⟨rfl, rfl⟩ := List.cons.inj h
    refine ⟨rest, rfl, hbody, rfl, fun _ => hfound, fun hplain => ?_⟩
    have hkind := (construct?_spec hfound).1
    simp [RegionKind.isShielded, hkind] at hplain
  · intro context run rest hrun hplain _ h
    obtain ⟨rfl, rfl⟩ := List.cons.inj h
    exact ⟨rest, rfl, hrun, rfl, nofun, fun _ => hplain⟩

/--
What holds of the spans of a text if it holds of no spans, and a shielded or a plain span
in front keeps it.  The spans are those of a rest that stands behind other bytes.
-/
theorem Region.spans_induction {motive : Text → Text → List Span → Prop}
    (nil : ∀ before, motive before [] [])
    (shielded : ∀ {before body rest kind name} {spans : List Span}, body ≠ [] →
      construct? (.after before) (body ++ rest) = some (kind, ⟨body.length, name⟩) →
        motive (before ++ body) rest spans → motive before (body ++ rest)
          (⟨before.length, before.length + body.length, kind, name⟩ :: spans))
    (plain : ∀ {before run rest} {spans : List Span}, run ≠ [] →
      run = plainRun (.after before) (run ++ rest) →
        motive (before ++ run) rest spans → motive before (run ++ rest)
          (⟨before.length, before.length + run.length, .plain, []⟩ :: spans))
    (before rest : Text) :
    motive before rest (Region.spans before.length (regionsFrom (.after before) rest)) := by
  have hall := @regionsFrom_induction
    (fun context rest regions => ∀ before, context = .after before →
      motive before rest (Region.spans before.length regions)) ?_ ?_ ?_ (.after before) rest
  · exact hall before rfl
  · exact fun _ before _ => nil before
  · rintro context body rest kind name hbody hfound ih before rfl
    have hbehind := ih (before ++ body) (LeftContext.after_append before body).symm
    rw [List.length_append] at hbehind
    exact shielded hbody hfound hbehind
  · rintro context run rest hne hrun ih before rfl
    have hbehind := ih (before ++ run) (LeftContext.after_append before run).symm
    rw [List.length_append] at hbehind
    exact plain hne hrun hbehind

theorem isFirstMatch_of_mem_spans (before rest : Text) :
    ∀ span ∈ Region.spans before.length (regionsFrom (.after before) rest),
      span.IsFirstMatch (before ++ rest) := by
  refine @Region.spans_induction
    (fun before rest spans => ∀ span ∈ spans, span.IsFirstMatch (before ++ rest))
    ?_ ?_ ?_ before rest
  · exact fun _ => List.forall_mem_nil _
  · intro before body rest kind name spans _ hfound hspans
    rw [List.append_assoc] at hspans
    exact List.forall_mem_cons.mpr ⟨Span.isFirstMatch_construct hfound, hspans⟩
  · intro before run rest spans _ hrun hspans
    rw [List.append_assoc] at hspans
    exact List.forall_mem_cons.mpr ⟨Span.isFirstMatch_plain hrun [], hspans⟩

/--
Segmentation is the first-match scan of a text.  Its spans are a partition, so that
the listing of the spans is never refused; they are first matches; and every match
makes progress and stays inside the text.
-/
theorem segment_firstMatchScan (text : Text) :
    partitionFault? (segment text) text.length = none ∧
      Command.listSpans text = { out := (segment text).flatMap Command.renderSpan } ∧
        (∀ span ∈ segment text, span.IsFirstMatch text) ∧
          ∀ offset, ∀ entry ∈ Recognizer.table, ∀ construct,
            entry.2.foundAt? text offset = some construct →
              offset < offset + construct.length ∧
                offset + construct.length ≤ text.length := by
  refine ⟨partitionFault?_segment_eq_none text, ?_, ?_, ?_⟩
  · rw [Command.listSpans, partitionFault?_segment_eq_none]
  · exact isFirstMatch_of_mem_spans [] text
  · intro offset entry hentry construct hfound
    obtain ⟨hpos, hfit⟩ := Recognizer.bounds_of_mem_table hentry hfound
    rw [List.length_drop] at hfit
    omega

end LatexIntegrity
