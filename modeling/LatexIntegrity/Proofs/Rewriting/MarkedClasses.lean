import LatexIntegrity.Proofs.Region.Classes
import LatexIntegrity.Proofs.Rewriting.MarkedConstructs

/-!
# The classes of bytes around a marker

A marker that is put in front of a line leaves the bytes of other lines in their classes, if
no region that begins on the line goes on behind it.  In plain text the line becomes a
comment; in an environment it stays a part of it.
-/

namespace LatexIntegrity

open Text (EndsLine IsUnbroken)

/-! ## How far a scan has come -/

/--
A scan of `before ++ rest` has passed the bytes of `items` and then gone on to `inner`: it has
the context `arrived` there, and no region that it has passed reaches into `inner ++ rest`.
-/
inductive ScansTo (rest : Text) (arrived : LeftContext) (inner : Text) :
    LeftContext → Text → ClassedText → Prop
  | stop : ScansTo rest arrived inner arrived inner []
  | plain {context : LeftContext} {b : UInt8} {before : Text} {items : ClassedText} :
      construct? context (b :: before ++ rest) = none →
        ScansTo rest arrived inner (context.push b) before items →
          ScansTo rest arrived inner context (b :: before) ((b, .plain) :: items)
  | construct {context : LeftContext} {body before : Text} {items : ClassedText}
      {kind : RegionKind} {name : Text} :
      body ≠ [] → construct? context (body ++ (before ++ rest)) =
          some (kind, ⟨body.length, name⟩) →
        ScansTo rest arrived inner (context.pushAll body) before items →
          ScansTo rest arrived inner context (body ++ before)
            (Region.classed ⟨kind, name, body⟩ ++ items)

namespace ScansTo

variable {marker rest before inner : Text} {context arrived : LeftContext} {items : ClassedText}

theorem classedFrom_eq (h : ScansTo rest arrived inner context before items) :
    classedFrom context (before ++ rest) = items ++ classedFrom arrived (inner ++ rest) := by
  induction h with
  | stop => rfl
  | plain hnone _ ih =>
      rw [List.cons_append] at hnone ⊢
      rw [classedFrom_plain hnone, ih, List.cons_append]
  | construct hbody hfound _ ih =>
      rw [List.append_assoc, classedFrom_construct hbody hfound, ih, List.append_assoc]

theorem bytes_append (h : ScansTo rest arrived inner context before items) :
    items.bytes ++ inner = before := by
  induction h with
  | stop => rfl
  | plain _ _ ih => exact congrArg (_ :: ·) ih
  | @construct _ body _ _ kind name _ _ _ ih =>
      have hbytes := Region.bytes_classed ⟨kind, name, body⟩
      rw [ClassedText.bytes] at hbytes ⊢
      rw [List.map_append, hbytes, List.append_assoc]
      exact congrArg (body ++ ·) ih

theorem length_add (h : ScansTo rest arrived inner context before items) :
    items.length + inner.length = before.length := by
  rw [← h.bytes_append, ClassedText.bytes, List.length_append, List.length_map]

theorem pushAll_eq (h : ScansTo rest arrived inner context before items) :
    context.pushAll before = arrived.pushAll inner := by
  induction h with
  | stop => rfl
  | plain _ _ ih => exact ih
  | construct _ _ _ ih => rw [LeftContext.pushAll_append, ih]

theorem marked (h : ScansTo rest arrived inner context before items)
    (hmarker : IsPlainMarker marker) (hline : EndsLine before) :
    ScansTo (marker ++ rest) arrived inner context before items := by
  induction h with
  | stop => exact .stop
  | plain hnone _ ih =>
      refine .plain ?_ (ih (hline.drop 1))
      rw [← Option.not_isSome_iff_eq_none] at hnone ⊢
      exact mt (isSome_construct?_of_marked hmarker hline (List.cons_ne_nil _ _)) hnone
  | construct hbody hfound _ ih =>
      exact .construct hbody (construct?_in_front_of_marker hmarker hline hfound) (ih hline.suffix)

end ScansTo

theorem exists_scansTo (context : LeftContext) (before rest : Text) :
    ∃ arrived inner items, ScansTo rest arrived inner context before items ∧
      (inner = [] ∨ ∃ kind length name,
        construct? arrived (inner ++ rest) = some (kind, ⟨length, name⟩) ∧
          inner.length < length) := by
  induction hn : before.length using Nat.strongRecOn generalizing context before with
  | ind n ih =>
      subst hn
      cases before with
      | nil => exact ⟨context, [], [], .stop, .inl rfl⟩
      | cons b before =>
          cases hfound : construct? context (b :: before ++ rest) with
          | none =>
              obtain ⟨arrived, inner, items, hscan, hend⟩ :=
                ih before.length (Nat.lt_succ_self _) (context.push b) before rfl
              exact ⟨arrived, inner, _, .plain hfound hscan, hend⟩
          | some found =>
              obtain ⟨kind, length, name⟩ := found
              have hpos : 0 < length := (construct?_spec hfound).2.1
              by_cases hinside : (b :: before).length < length
              · exact ⟨context, b :: before, [], .stop, .inr ⟨kind, length, name, hfound, hinside⟩⟩
              · rw [Nat.not_lt] at hinside
                have hlength := List.length_take_of_le hinside
                have hsplit := List.take_append_drop length (b :: before)
                generalize (b :: before).take length = body at *
                generalize hbefore : (b :: before).drop length = behind at *
                rw [← hsplit, List.append_assoc] at hfound
                subst hlength
                have hshorter : behind.length < (b :: before).length := by
                  rw [← hbefore, List.length_drop, List.length_cons]
                  omega
                obtain ⟨arrived, inner, items, hscan, hend⟩ :=
                  ih behind.length hshorter (context.pushAll body) behind rfl
                rw [← hsplit]
                exact ⟨arrived, inner, _,
                  .construct (List.length_pos_iff.mp hpos) hfound hscan, hend⟩

/-! ## Where no region goes on -/

def ClassedText.StartsFree (items : ClassedText) : Prop :=
  ∀ item, items.head? = some item → item.2.isFree = true

variable {context : LeftContext} {first second inner rest : Text} {kind : RegionKind} {name : Text}

theorem Region.classed_append (hfirst : first ≠ []) (second : Text) :
    Region.classed ⟨kind, name, first ++ second⟩ =
      Region.classed ⟨kind, name, first⟩ ++ second.map (·, ⟨kind, name, false⟩) := by
  have hpos := List.length_pos_iff.mpr hfirst
  rw [Region.classed, Region.classed, List.mapIdx_append]
  congr 1
  apply List.ext_getElem?
  intro index
  have hlater : (index + first.length == 0) = false := beq_false_of_ne (by omega)
  rw [List.getElem?_mapIdx, List.getElem?_map, hlater, Bool.and_false]

theorem startsFree_classedFrom (context : LeftContext) (text : Text) :
    (classedFrom context text).StartsFree := by
  intro item hitem
  rw [classedFrom] at hitem
  cases hregions : regionsFrom context text with
  | nil =>
      rw [hregions] at hitem
      cases hitem
  | cons region others =>
      obtain ⟨-, -, hbody, -⟩ := regionsFrom_eq_cons hregions
      obtain ⟨b, body, hcons⟩ := List.exists_cons_of_ne_nil hbody
      rw [hregions, List.flatMap_cons, Region.classed, hcons, List.mapIdx_cons] at hitem
      cases hitem
      cases hkind : region.kind <;> simp [ByteClass.isFree, RegionKind.isShielded]

theorem classedFrom_inside {length : Nat}
    (h : construct? context (inner ++ rest) = some (kind, ⟨length, name⟩)) (hinner : inner ≠ [])
    (hinside : inner.length < length) :
    classedFrom context (inner ++ rest) = Region.classed ⟨kind, name, inner⟩ ++
      ((rest.take (length - inner.length)).map (·, ⟨kind, name, false⟩) ++
        classedFrom ((context.pushAll inner).pushAll (rest.take (length - inner.length)))
          (rest.drop (length - inner.length))) := by
  have hfit : length ≤ (inner ++ rest).length := (construct?_spec h).2.2
  obtain ⟨distance, rfl⟩ := Nat.exists_eq_add_of_le (Nat.le_of_lt hinside)
  rw [List.length_append] at hfit
  rw [Nat.add_sub_cancel_left]
  have hlength : (inner ++ rest.take distance).length = inner.length + distance := by
    rw [List.length_append, List.length_take_of_le (by omega)]
  have hsplit : inner ++ rest = (inner ++ rest.take distance) ++ rest.drop distance := by
    rw [List.append_assoc, List.take_append_drop]
  rw [hsplit, ← hlength] at h
  rw [hsplit, classedFrom_construct (List.append_ne_nil_of_left_ne_nil hinner _) h,
    Region.classed_append hinner, LeftContext.pushAll_append, List.append_assoc]

theorem head?_classedFrom_inside {length : Nat}
    (h : construct? context (inner ++ rest) = some (kind, ⟨length, name⟩)) (hinner : inner ≠ [])
    (hinside : inner.length < length) :
    ∃ b, ((classedFrom context (inner ++ rest)).drop inner.length).head? =
      some (b, ⟨kind, name, false⟩) := by
  have hfit : length ≤ (inner ++ rest).length := (construct?_spec h).2.2
  obtain ⟨b, others, htake⟩ : ∃ b others, rest.take (length - inner.length) = b :: others := by
    apply List.exists_cons_of_length_pos
    rw [List.length_append] at hfit
    rw [List.length_take]
    omega
  have hlength := Region.length_classed ⟨kind, name, inner⟩
  refine ⟨b, ?_⟩
  rw [classedFrom_inside h hinner hinside, List.drop_left' hlength, htake]
  rfl

theorem exists_scansTo_rest {before : Text} (hrest : ClassedText.StartsFree
    ((classedFrom context (before ++ rest)).drop before.length)) :
    ∃ items, ScansTo rest (context.pushAll before) [] context before items := by
  obtain ⟨arrived, inner, items, hscan, hend⟩ := exists_scansTo context before rest
  by_cases hinner : inner = []
  · subst hinner
    have harrived := hscan.pushAll_eq
    rw [LeftContext.pushAll_nil] at harrived
    exact ⟨items, by rwa [harrived]⟩
  · exfalso
    obtain ⟨kind, length, name, hfound, hinside⟩ := hend.resolve_left hinner
    obtain ⟨b, hhead⟩ := head?_classedFrom_inside hfound hinner hinside
    rw [hscan.classedFrom_eq, ← hscan.length_add, List.drop_length_add_append] at hrest
    have hkind := (construct?_spec hfound).1
    have hfree := hrest _ hhead
    simp [ByteClass.isFree, hkind] at hfree

/-! ## One marked line -/

/--
The line at the head of what is classed, with a marker in front of it: a comment, if a region
can begin there, and otherwise a part of the region around it.
-/
def markLine (marker : Text) : ClassedText → ClassedText
  | [] => Region.classed ⟨.comment, [], marker⟩
  | (b, byteClass) :: rest =>
      if byteClass.isFree then
        Region.classed ⟨.comment, [], marker ++ b :: ClassedText.bytes rest⟩
      else marker.map (·, byteClass) ++ (b, byteClass) :: rest

/--
A marker changes this line only: no region that begins on the line goes on behind it, and a
region that goes on from the line before is an environment.
-/
def IsMarkable (line behind : ClassedText) : Prop :=
  ∃ item, line.head? = some item ∧ (item.2.isFree = true → behind.StartsFree) ∧
    (item.2.isFree = false → item.2.kind = .environment)

variable {marker before line behind : Text} {items lineItems others : ClassedText}

theorem construct?_marker (hmarker : IsPlainMarker marker) (hline : line.IsUnbroken)
    (hbehind : ∀ b, behind.head? = some b → b = ('\n' : UInt8)) :
    construct? .initial (marker ++ line ++ behind) =
      some (.comment, ⟨(marker ++ line).length, []⟩) := by
  obtain ⟨rest, rfl⟩ := List.head?_eq_some_iff.mp hmarker.head
  have hunbroken : ∀ b ∈ rest ++ line, (b != ('\n' : UInt8)) = true := by
    intro b hb
    rw [bne_iff_ne]
    rintro rfl
    rcases List.mem_append.mp hb with hb | hb
    · exact hmarker.not_mem (by decide) (List.mem_cons_of_mem _ hb)
    · exact hline hb
  have hstop : behind.takeWhile (· != ('\n' : UInt8)) = [] := by
    cases behind with
    | nil => rfl
    | cons b behind =>
        obtain rfl := hbehind b rfl
        rfl
  refine construct?_eq_some_iff.mpr ⟨Recognizer.comment, by simp [Recognizer.table],
    Recognizer.comment_eq_some_iff.mpr ⟨rfl, rest ++ line ++ behind, rfl, ?_⟩⟩
  rw [List.takeWhile_append_of_pos hunbroken, hstop, List.append_nil, List.cons_append,
    List.length_cons, Nat.add_comm]

theorem exists_classedFrom_comment (hmarker : IsPlainMarker marker) (hline : line.IsUnbroken)
    (hbehind : ∀ b, behind.head? = some b → b = ('\n' : UInt8))
    (hfree : ClassedText.StartsFree ((classedFrom .initial (line ++ behind)).drop line.length)) :
    ∃ lineItems others, lineItems.bytes = line ∧
      classedFrom .initial (line ++ behind) = lineItems ++ others ∧
      classedFrom .initial (marker ++ (line ++ behind)) =
        Region.classed ⟨.comment, [], marker ++ line⟩ ++ others := by
  obtain ⟨lineItems, hscan⟩ := exists_scansTo_rest hfree
  have hbytes := hscan.bytes_append
  rw [List.append_nil] at hbytes
  refine ⟨lineItems, _, hbytes, hscan.classedFrom_eq, ?_⟩
  rw [← List.append_assoc, classedFrom_construct
    (List.append_ne_nil_of_left_ne_nil hmarker.ne_nil _) (construct?_marker hmarker hline hbehind),
    classedFrom_context hbehind, List.nil_append]

theorem classedFrom_around_marker (hmarker : IsPlainMarker marker) (hline : EndsLine inner)
    (hinner : inner ≠ []) {length : Nat} (hinside : inner.length < length)
    (h : construct? context (inner ++ rest) = some (.environment, ⟨length, name⟩)) :
    ∃ items others, items.length = inner.length ∧
      classedFrom context (inner ++ rest) = items ++ others ∧
      classedFrom context (inner ++ (marker ++ rest)) =
        items ++ (marker.map (·, ⟨.environment, name, false⟩) ++ others) := by
  have hmarked := construct?_around_marker hmarker hline hinner hinside h
  rw [← List.append_assoc] at hmarked
  have hwhole := classedFrom_inside hmarked (List.append_ne_nil_of_left_ne_nil hinner _)
    (by rw [List.length_append]; omega)
  rw [List.length_append, Nat.add_sub_add_right, Region.classed_append hinner,
    LeftContext.pushAll_append, hmarker.pushAll, ← hline.pushAll hinner, List.append_assoc,
    List.append_assoc] at hwhole
  exact ⟨_, _, Region.length_classed _, classedFrom_inside h hinner hinside, hwhole⟩

theorem classedFrom_marked (hmarker : IsPlainMarker marker) (hline : line.IsUnbroken)
    (hbehind : ∀ b, behind.head? = some b → b = ('\n' : UInt8))
    (h : classedFrom .initial (line ++ behind) = lineItems ++ others)
    (hlineItems : lineItems.length = line.length) (hmarkable : IsMarkable lineItems others) :
    classedFrom .initial (marker ++ (line ++ behind)) = markLine marker lineItems ++ others := by
  obtain ⟨⟨b, byteClass⟩, hhead, hfree, -⟩ := hmarkable
  obtain ⟨lineRest, rfl⟩ := List.head?_eq_some_iff.mp hhead
  have hstarts : byteClass.isFree = true :=
    startsFree_classedFrom _ _ (b, byteClass) (by rw [h]; rfl)
  obtain ⟨lineItems, behindItems, hlineBytes, hsplit, hcomment⟩ :=
    exists_classedFrom_comment hmarker hline hbehind
      (by rw [h, List.drop_left' hlineItems]; exact hfree hstarts)
  have hwidth : lineItems.length = line.length := by
    rw [← hlineBytes, ClassedText.bytes, List.length_map]
  obtain ⟨rfl, rfl⟩ := List.append_inj (hsplit.symm.trans h) (hwidth.trans hlineItems.symm)
  rw [hcomment, markLine, if_pos hstarts, ← hlineBytes]
  rfl

theorem classedFrom_marked_inside (hmarker : IsPlainMarker marker) (hline : EndsLine inner)
    (hinner : inner ≠ []) {kind : RegionKind} {length : Nat} (hinside : inner.length < length)
    (hfound : construct? context (inner ++ rest) = some (kind, ⟨length, name⟩))
    (h : classedFrom context (inner ++ rest) = items ++ (lineItems ++ others))
    (hitems : items.length = inner.length) (hmarkable : IsMarkable lineItems others) :
    classedFrom context (inner ++ (marker ++ rest)) =
      items ++ (markLine marker lineItems ++ others) := by
  obtain ⟨⟨b, byteClass⟩, hhead, -, henvironment⟩ := hmarkable
  obtain ⟨lineRest, rfl⟩ := List.head?_eq_some_iff.mp hhead
  have hclass : byteClass = ⟨kind, name, false⟩ := by
    obtain ⟨c, hc⟩ := head?_classedFrom_inside hfound hinner hinside
    rw [h, ← hitems, List.drop_left] at hc
    cases hc
    rfl
  obtain rfl : kind = .environment := by
    have hkind := (construct?_spec hfound).1
    have hregion := henvironment (by rw [hclass]; simp [ByteClass.isFree, hkind])
    rwa [hclass] at hregion
  obtain ⟨innerItems, behindItems, hwidth, hregion, haround⟩ :=
    classedFrom_around_marker hmarker hline hinner hinside hfound
  rw [hregion] at h
  obtain ⟨rfl, rfl⟩ := List.append_inj h (hwidth.trans hitems.symm)
  rw [haround, markLine, hclass, if_neg (by simp [ByteClass.isFree]), List.append_assoc]

/-- A marker in front of a line that it may change changes this line only. -/
theorem classed_marked (hmarker : IsPlainMarker marker) (hbefore : EndsLine before)
    (hline : line.IsUnbroken) (hbehind : ∀ b, behind.head? = some b → b = ('\n' : UInt8))
    (h : classed (before ++ (line ++ behind)) = items ++ (lineItems ++ others))
    (hitems : items.length = before.length) (hlineItems : lineItems.length = line.length)
    (hmarkable : IsMarkable lineItems others) :
    classed (before ++ (marker ++ (line ++ behind))) =
      items ++ (markLine marker lineItems ++ others) := by
  obtain ⟨arrived, inner, scanned, hscan, hend⟩ := exists_scansTo .initial before (line ++ behind)
  have hlength := hscan.length_add
  rw [classed, hscan.classedFrom_eq] at h
  rw [classed, (hscan.marked hmarker hbefore).classedFrom_eq]
  obtain ⟨innerItems, rfl⟩ : scanned <+: items :=
    List.prefix_of_prefix_length_le (h ▸ List.prefix_append _ _) (List.prefix_append _ _)
      (by omega)
  rw [List.append_assoc, List.append_cancel_left_eq] at h
  rw [List.length_append] at hitems
  have hwidth : innerItems.length = inner.length := by omega
  rw [List.append_assoc, List.append_cancel_left_eq]
  by_cases hinner : inner = []
  · -- A region can begin in front of the marker.
    subst hinner
    obtain rfl : innerItems = [] := List.length_eq_zero_iff.mp hwidth
    have harrived : arrived = .initial := by
      have hpush := hscan.pushAll_eq
      rw [LeftContext.pushAll_nil] at hpush
      rw [← hpush]
      by_cases hne : before = []
      · rw [hne]
        rfl
      · exact hbefore.pushAll hne
    subst harrived
    exact classedFrom_marked hmarker hline hbehind h hlineItems hmarkable
  · -- The marker stands in a region.
    obtain ⟨kind, length, name, hfound, hinside⟩ := hend.resolve_left hinner
    have hsuffix : EndsLine inner := by
      rw [← hscan.bytes_append] at hbefore
      exact hbefore.suffix
    exact classedFrom_marked_inside hmarker hsuffix hinner hinside hfound h hwidth hmarkable

end LatexIntegrity
