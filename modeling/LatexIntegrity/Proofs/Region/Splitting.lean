import LatexIntegrity.Proofs.Region.FirstMatch
import LatexIntegrity.Proofs.Region.Survival

/-!
# Splitting a text at the boundary of a span

A text that is split where one of its spans ends falls into the same spans as its two
parts, unless two dollar signs are torn apart.  In front of the boundary no construct
looks beyond it, and behind it no byte is escaped but the line feed that ends a comment.
-/

namespace LatexIntegrity

/-! ## Regions on both sides of a boundary -/

section

variable {context : LeftContext} {first second : Text} {before after : List Region}

theorem plainRun_append {run rest : Text} (hrun : IsPlainRun context run rest)
    (hrest : rest ≠ [] → (construct? (context.pushAll run) rest).isSome = true) :
    plainRun context (run ++ rest) = run := by
  induction run generalizing context with
  | nil =>
      cases rest with
      | nil => rfl
      | cons b rest =>
          have hsome := hrest (List.cons_ne_nil b rest)
          rw [LeftContext.pushAll_nil] at hsome
          rw [List.nil_append, plainRun, if_pos hsome]
  | cons b run ih =>
      have hnone := hrun.head (List.cons_ne_nil b run)
      rw [List.cons_append] at hnone ⊢
      rw [plainRun, hnone, ih hrun.tail hrest]
      rfl

theorem regionsFrom_construct {body rest : Text} {kind : RegionKind} {name : Text}
    (hbody : body ≠ [])
    (h : construct? context (body ++ rest) = some (kind, ⟨body.length, name⟩)) :
    regionsFrom context (body ++ rest) =
      ⟨kind, name, body⟩ :: regionsFrom (context.pushAll body) rest := by
  obtain ⟨b, others, rfl⟩ := List.exists_cons_of_ne_nil hbody
  rw [List.cons_append] at h ⊢
  rw [regionsFrom, h]
  simp

theorem regionsFrom_plain {run rest : Text} (hrun : run ≠ [])
    (h : plainRun context (run ++ rest) = run) :
    regionsFrom context (run ++ rest) =
      ⟨.plain, [], run⟩ :: regionsFrom (context.pushAll run) rest := by
  obtain ⟨b, others, rfl⟩ := List.exists_cons_of_ne_nil hrun
  rw [List.cons_append, plainRun] at h
  split at h
  · cases h
  · next hnone =>
      obtain ⟨-, hothers⟩ := List.cons.inj h
      rw [List.cons_append, regionsFrom, Option.not_isSome_iff_eq_none.mp hnone]
      simp [hothers]

theorem scan_context {other : LeftContext} {b : UInt8} {rest : Text}
    (hescaped : other.escaped = context.escaped ∨ b = '\n')
    (hdollar : b = '$' → other.dollar = context.dollar) :
    construct? other (b :: rest) = construct? context (b :: rest) ∧
      other.push b = context.push b := by
  rcases hescaped with hescaped | rfl
  · refine ⟨construct?_context hescaped fun hhead => ?_, ?_⟩
    · exact LeftContext.eq_mk hescaped (hdollar (Option.some.inj hhead))
    · rw [LeftContext.push, LeftContext.push, hescaped]
  · refine ⟨?_, rfl⟩
    rw [construct?_eq_none_of_head (by decide) (by decide) (by decide),
      construct?_eq_none_of_head (by decide) (by decide) (by decide)]

/-- Of what stands before a text, its regions depend only on what a backslash or a dollar does. -/
theorem regionsFrom_context {other : LeftContext} {text : Text}
    (hescaped : other.escaped = context.escaped ∨
      ∀ b, text.head? = some b → b = ('\n' : UInt8))
    (hdollar : text.head? = some ('$' : UInt8) → other.dollar = context.dollar) :
    regionsFrom other text = regionsFrom context text := by
  cases text with
  | nil => rw [regionsFrom, regionsFrom]
  | cons b rest =>
      obtain ⟨hfound, hpush⟩ := @scan_context context other b rest
        (hescaped.imp_right fun hline => hline b rfl) fun hb => hdollar (congrArg some hb)
      rw [regionsFrom, regionsFrom, hfound]
      simp only [LeftContext.pushAll_cons, hpush]

theorem isShielded_first_iff {text : Text} {region : Region} {others : List Region}
    (h : regionsFrom context text = region :: others) :
    region.kind.isShielded = true ↔ (construct? context text).isSome = true := by
  obtain ⟨rest, rfl, hbody, -, hshielded, hplain⟩ := regionsFrom_eq_cons h
  constructor
  · intro hkind
    rw [hshielded hkind]
    rfl
  · intro hsome
    rw [← Bool.not_eq_false]
    intro hkind
    have hrun := hplain hkind
    obtain ⟨b, tail, hcons⟩ := List.exists_cons_of_ne_nil
      (List.append_ne_nil_of_left_ne_nil hbody rest)
    rw [hcons] at hrun hsome
    rw [plainRun, if_pos hsome] at hrun
    exact hbody hrun

theorem eq_plain_of_regionsFrom {text : Text} {region : Region} {others : List Region}
    (h : regionsFrom context text = region :: others) (hkind : region.kind.isShielded = false) :
    region = ⟨.plain, [], region.body⟩ := by
  obtain ⟨rest, rfl, hbody, -, -, hplain⟩ := regionsFrom_eq_cons h
  have hregions := regionsFrom_plain hbody (hplain hkind).symm
  rw [h] at hregions
  exact (List.cons.inj hregions).1

theorem construct?_first {body inner : Text} {kind : RegionKind} {name : Text}
    (h : construct? context (body ++ (inner ++ second)) = some (kind, ⟨body.length, name⟩)) :
    construct? context (body ++ inner) = some (kind, ⟨body.length, name⟩) := by
  have hhead : ∀ b, inner.head? = some b → (inner ++ second).head? = some b := by
    intro b hb
    simp [hb]
  apply construct?_again h
  · exact fun hline b hb => hline b (hhead b hb)
  · exact fun _ hnext hb => hnext (hhead _ hb)
  · intro _ hnone
    cases harguments : Recognizer.definitionArguments? inner with
    | none => rfl
    | some length =>
        have hmore := Recognizer.isSome_definitionArguments?_append
          (by rw [harguments]; rfl) second
        simp [hnone] at hmore

theorem IsPlainRun.cut {run inner : Text} (h : IsPlainRun context run (inner ++ second))
    (hdollar : (run ++ inner).getLast? = some ('$' : UInt8) →
      second.head? ≠ some ('$' : UInt8)) : IsPlainRun context run inner := by
  intro offset hoffset
  rw [← Option.not_isSome_iff_eq_none]
  intro hsome
  have hne : run.drop offset ++ inner ≠ [] :=
    List.append_ne_nil_of_left_ne_nil (by simpa using hoffset) inner
  have hsplit : run.take offset ++ (run.drop offset ++ inner) = run ++ inner := by
    rw [← List.append_assoc, List.take_append_drop]
  have hlonger := isSome_construct?_append second hsome fun hlast =>
    hdollar (by rwa [← hsplit, List.getLast?_append_of_ne_nil _ hne])
  rw [List.append_assoc, h offset hoffset] at hlonger
  cases hlonger

theorem regionsFrom_first (h : regionsFrom context (first ++ second) = before ++ after)
    (hfirst : before.flatMap (·.body) = first)
    (hdollar : first.getLast? = some ('$' : UInt8) → second.head? ≠ some ('$' : UInt8)) :
    regionsFrom context first = before := by
  induction before generalizing context first with
  | nil =>
      subst hfirst
      rw [List.flatMap_nil, regionsFrom]
  | cons region others ih =>
      rw [List.cons_append] at h
      obtain ⟨rest, htext, hbody, hothers, hshielded, hplain⟩ := regionsFrom_eq_cons h
      rw [List.flatMap_cons] at hfirst
      generalize hinner : others.flatMap (·.body) = inner at hfirst
      subst hfirst
      obtain rfl : inner ++ second = rest := by
        rw [List.append_assoc] at htext
        exact List.append_cancel_left htext
      have hbehind : regionsFrom (context.pushAll region.body) inner = others := by
        refine ih hothers hinner fun hlast => hdollar ?_
        cases inner with
        | nil => simp at hlast
        | cons b tail => rwa [List.getLast?_append_of_ne_nil _ (by simp)]
      cases hkind : region.kind.isShielded with
      | true =>
          rw [regionsFrom_construct hbody (construct?_first (hshielded hkind)), hbehind]
      | false =>
          have hrun := hplain hkind
          -- Behind the plain bytes a construct follows, which ends before the boundary.
          have hends : inner ≠ [] →
              (construct? (context.pushAll region.body) inner).isSome = true := by
            intro hne
            obtain ⟨next, tail, rfl⟩ : ∃ next tail, others = next :: tail := by
              cases others with
              | nil => exact absurd hinner.symm hne
              | cons next tail => exact ⟨next, tail, rfl⟩
            have hnext := (isShielded_first_iff hothers).mpr
              (isSome_construct?_behind hrun (List.append_ne_nil_of_left_ne_nil hne second))
            exact (isShielded_first_iff hbehind).mp hnext
          have hplainRun := plainRun_append
            ((IsPlainRun.of_plainRun hrun).cut hdollar) hends
          rw [regionsFrom_plain hbody hplainRun, hbehind, ← eq_plain_of_regionsFrom h hkind]

theorem regionsFrom_second (h : regionsFrom context (first ++ second) = before ++ after)
    (hfirst : before.flatMap (·.body) = first) :
    regionsFrom (context.pushAll first) second = after := by
  induction before generalizing context first with
  | nil =>
      subst hfirst
      exact h
  | cons region others ih =>
      obtain ⟨rest, htext, -, hothers, -⟩ := regionsFrom_eq_cons h
      rw [List.flatMap_cons] at hfirst
      subst hfirst
      rw [List.append_assoc] at htext
      rw [LeftContext.pushAll_append]
      exact ih (List.append_cancel_left htext ▸ hothers) rfl

theorem escaped_behind_plainRun {run rest : Text} (hrun : run = plainRun context (run ++ rest)) :
    (context.pushAll run).escaped = false ∨ ∀ b, rest.head? = some b → b = ('\n' : UInt8) := by
  cases rest with
  | nil => exact .inr fun b hb => nomatch hb
  | cons b rest =>
      obtain ⟨found, hfound⟩ := Option.isSome_iff_exists.mp
        (isSome_construct?_behind hrun (List.cons_ne_nil b rest))
      exact .inl (escaped_of_construct? hfound)

theorem escaped_at_boundary (h : regionsFrom context (first ++ second) = before ++ after)
    (hfirst : before.flatMap (·.body) = first)
    (hcontext : context.escaped = false ∨
      ∀ b, (first ++ second).head? = some b → b = ('\n' : UInt8)) :
    (context.pushAll first).escaped = false ∨
      ∀ b, second.head? = some b → b = ('\n' : UInt8) := by
  induction before generalizing context first with
  | nil =>
      subst hfirst
      exact hcontext
  | cons region others ih =>
      obtain ⟨rest, htext, -, hothers, hshielded, hplain⟩ := regionsFrom_eq_cons h
      rw [List.flatMap_cons] at hfirst
      subst hfirst
      rw [List.append_assoc] at htext
      obtain rfl := List.append_cancel_left htext
      rw [LeftContext.pushAll_append]
      refine ih hothers rfl ?_
      cases hkind : region.kind.isShielded with
      | true => exact escaped_behind_construct? (hshielded hkind)
      | false => exact escaped_behind_plainRun (hplain hkind)

end

/-! ## Spans on both sides of a boundary -/

def Span.shift (distance : Nat) (span : Span) : Span :=
  { span with start := span.start + distance, stop := span.stop + distance }

theorem Region.spans_append (start : Nat) (before after : List Region) :
    Region.spans start (before ++ after) =
      Region.spans start before ++
        Region.spans (start + (before.flatMap (·.body)).length) after := by
  induction before generalizing start with
  | nil => rfl
  | cons region others ih => simp [Region.spans, ih, Nat.add_assoc]

theorem Region.spans_shift (distance start : Nat) (regions : List Region) :
    Region.spans (start + distance) regions =
      (Region.spans start regions).map (Span.shift distance) := by
  induction regions generalizing start with
  | nil => rfl
  | cons region others ih =>
      simp only [Region.spans, List.map_cons, ← ih, Span.shift]
      rw [Nat.add_right_comm start distance]

theorem Region.le_start_of_mem_spans {start : Nat} {regions : List Region} {span : Span}
    (h : span ∈ Region.spans start regions) : start ≤ span.start := by
  induction regions generalizing start with
  | nil => cases h
  | cons region others ih =>
      rcases List.mem_cons.mp h with rfl | h
      · exact Nat.le_refl start
      · have := ih h
        omega

theorem Region.exists_getElem?_flatMap {start offset : Nat} {regions : List Region} {span : Span}
    (hspan : span ∈ Region.spans start regions) (hoffset : span.contains (start + offset) = true) :
    ∃ region : Region, region.kind = span.kind ∧ region.name = span.name ∧
      start + offset - span.start < region.body.length ∧
        ∀ {α : Type} (items : Region → List α),
          (∀ region, (items region).length = region.body.length) →
            (regions.flatMap items)[offset]? = (items region)[start + offset - span.start]? := by
  rw [Span.contains_iff] at hoffset
  induction regions generalizing start offset with
  | nil => cases hspan
  | cons region others ih =>
      rcases List.mem_cons.mp hspan with rfl | hspan
      · simp only at hoffset
        refine ⟨region, rfl, rfl, by simp only; omega, fun items hitems => ?_⟩
        rw [List.flatMap_cons, Nat.add_sub_cancel_left,
          List.getElem?_append_left (by rw [hitems]; omega)]
      · have hstart := le_start_of_mem_spans hspan
        obtain ⟨distance, rfl⟩ := Nat.exists_eq_add_of_le
          (show region.body.length ≤ offset by omega)
        rw [← Nat.add_assoc] at hoffset ⊢
        obtain ⟨found, hkind, hname, hlt, hfound⟩ := ih hspan hoffset
        refine ⟨found, hkind, hname, hlt, fun items hitems => ?_⟩
        rw [List.flatMap_cons, List.getElem?_append_right (by rw [hitems]; omega), hitems,
          Nat.add_sub_cancel_left, hfound items hitems]

theorem Region.exists_append_of_mem_spans {start cut : Nat} {regions : List Region}
    (h : ∃ span ∈ Region.spans start regions, span.start = cut ∨ span.stop = cut) :
    ∃ before after, regions = before ++ after ∧
      cut = start + (before.flatMap (·.body)).length := by
  induction regions generalizing start with
  | nil => simp [Region.spans] at h
  | cons region others ih =>
      simp only [Region.spans, List.exists_mem_cons_iff] at h
      rcases h with (rfl | rfl) | h
      · exact ⟨[], region :: others, rfl, rfl⟩
      · exact ⟨[region], others, rfl, by simp⟩
      · obtain ⟨before, after, rfl, rfl⟩ := ih h
        exact ⟨region :: before, after, rfl, by simp [Nat.add_assoc]⟩

/--
A text is segmented part by part where one of its spans begins or ends, unless the
boundary stands between two dollar signs.
-/
theorem segment_eq_append (text : Text) (cut : Nat)
    (hboundary : ∃ span ∈ segment text, span.start = cut ∨ span.stop = cut)
    (hdollar : text[cut - 1]? = some ('$' : UInt8) → text[cut]? ≠ some ('$' : UInt8)) :
    segment text =
      segment (text.take cut) ++ (segment (text.drop cut)).map (Span.shift cut) := by
  obtain ⟨before, after, hregions, hcut⟩ := Region.exists_append_of_mem_spans hboundary
  rw [Nat.zero_add] at hcut
  have hbodies := flatMap_body_regions text
  rw [hregions, List.flatMap_append] at hbodies
  generalize hfirst : before.flatMap (·.body) = first at hbodies hcut
  generalize after.flatMap (·.body) = second at hbodies
  subst hbodies hcut
  rw [List.take_left, List.drop_left]
  have hlast : first.getLast? = some ('$' : UInt8) → second.head? ≠ some ('$' : UInt8) := by
    intro hend hhead
    have hpos : 0 < first.length := List.length_pos_iff.mpr (by rintro rfl; simp at hend)
    rw [List.getLast?_eq_getElem?] at hend
    rw [List.getElem?_append_left (by omega), List.getElem?_append_right (by omega),
      Nat.sub_self, ← List.head?_eq_getElem?] at hdollar
    exact hdollar hend hhead
  have hescaped := escaped_at_boundary hregions hfirst (.inl rfl)
  have hsecond : regions second = after := by
    rw [← regionsFrom_second hregions hfirst]
    refine regionsFrom_context ?_ ?_
    · exact hescaped.imp_left fun hfalse => hfalse.symm
    · intro hhead
      cases hnil : first with
      | nil => rfl
      | cons b tail =>
          rw [LeftContext.pushAll_dollar _ (by simp), ← hnil]
          simpa [LeftContext.initial] using fun hend => hlast hend hhead
  rw [segment, hregions, Region.spans_append, hfirst, Region.spans_shift, segment, segment,
    hsecond, regions, regionsFrom_first hregions hfirst hlast]

/-- Behind the comment the text goes on with an escaped line feed. -/
theorem segment_eq_append_comment :
    segment "\\def\\a#1\x7b$\x7d%b\\\n$x$\\cite[y" =
      segment ((Text.ofString "\\def\\a#1\x7b$\x7d%b\\\n$x$\\cite[y").take 14) ++
        (segment ((Text.ofString "\\def\\a#1\x7b$\x7d%b\\\n$x$\\cite[y").drop 14)).map
          (Span.shift 14) :=
  segment_eq_append _ 14 (by decide +kernel) (by decide +kernel)

end LatexIntegrity
