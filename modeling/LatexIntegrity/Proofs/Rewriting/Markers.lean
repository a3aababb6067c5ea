import LatexIntegrity.Proofs.Markup.Groups
import LatexIntegrity.Proofs.Region.Survival
import LatexIntegrity.Proofs.Rewriting.Groups
import LatexIntegrity.Proofs.Text.Lines

/-!
# A marker in front of a line

A marker that holds no byte of the markup closes nothing and opens nothing but a comment.  A
construct that is recognised in front of a marker, or around it, is therefore recognised
without the marker as well.
-/

namespace LatexIntegrity

open Text (EndsLine)

/-- A byte with which no construct but a comment begins, and none ends. -/
def isQuiet (b : UInt8) : Bool := !List.elem b "\\$\x7b\x7d[]\n"

/-- A marker that begins a comment and holds no other markup. -/
structure IsPlainMarker (marker : Text) : Prop where
  head : marker.head? = some ('%' : UInt8)
  quiet : ∀ b ∈ marker, isQuiet b = true

instance (marker : Text) : Decidable (IsPlainMarker marker) :=
  decidable_of_iff (marker.head? = some ('%' : UInt8) ∧ marker.all isQuiet = true)
    ⟨fun h => ⟨h.1, List.all_eq_true.mp h.2⟩, fun h => ⟨h.head, List.all_eq_true.mpr h.quiet⟩⟩

namespace IsPlainMarker

variable {marker : Text} {b : UInt8}

theorem ne (h : IsPlainMarker marker) (hb : b ∈ marker) {other : UInt8}
    (hother : isQuiet other = false) : b ≠ other := by
  rintro rfl
  rw [h.quiet b hb] at hother
  cases hother

theorem not_mem (h : IsPlainMarker marker) (hb : isQuiet b = false) : b ∉ marker :=
  fun hmem => h.ne hmem hb rfl

theorem ne_nil (h : IsPlainMarker marker) : marker ≠ [] := by
  rintro rfl
  cases h.head

theorem isUnbroken (h : IsPlainMarker marker) : marker.IsUnbroken := h.not_mem (by decide)

theorem pushAll (h : IsPlainMarker marker) {context : LeftContext} :
    context.pushAll marker = .initial := by
  rw [← List.dropLast_append_getLast h.ne_nil, LeftContext.pushAll_append]
  have hlast := List.getLast_mem h.ne_nil
  have hbackslash : marker.getLast h.ne_nil ≠ ('\\' : UInt8) := h.ne hlast (by decide)
  have hdollar : marker.getLast h.ne_nil ≠ ('$' : UInt8) := h.ne hlast (by decide)
  simp [LeftContext.push, LeftContext.initial, hbackslash, hdollar]

end IsPlainMarker

inductive IsMarked (marker : Text) : Text → Text → Prop
  | same (text : Text) : IsMarked marker text text
  | insert {before behind : Text} : EndsLine before →
      IsMarked marker (before ++ behind) (before ++ (marker ++ behind))

/-! ## Groups -/

section Groups

variable {marker before behind : Text} {length : Nat}

theorem IsMarked.drop (h : EndsLine before) {offset : Nat} (hoffset : offset ≤ before.length) :
    IsMarked marker ((before ++ behind).drop offset)
      ((before ++ (marker ++ behind)).drop offset) := by
  rw [List.drop_append_of_le_length hoffset, List.drop_append_of_le_length hoffset]
  exact .insert (h.drop offset)

theorem IsMarked.drop_behind (marker before behind : Text) (count : Nat) :
    (before ++ (marker ++ behind)).drop (before.length + marker.length + count) =
      (before ++ behind).drop (before.length + count) := by
  rw [Nat.add_assoc, List.drop_length_add_append, List.drop_length_add_append,
    List.drop_length_add_append]

namespace Group

theorem closing?_marker (hmarker : IsPlainMarker marker) (limit depth : Nat) (behind : Text) :
    closing? limit depth (marker ++ behind) =
      (closing? limit depth behind).map (· + marker.length) := by
  have hquiet := hmarker.quiet
  clear hmarker
  induction marker with
  | nil => simp
  | cons b rest ih =>
      obtain ⟨hb, hrest⟩ := List.forall_mem_cons.mp hquiet
      have hne : ∀ other, isQuiet other = false → b ≠ other := by
        rintro _ hother rfl
        rw [hb] at hother
        cases hother
      rw [List.cons_append, closing?_byte (hne _ (by decide)) (hne _ (by decide))
        (hne _ (by decide)), ih hrest, Option.map_map]
      rfl

theorem ClosesAt.behind_marker (hmarker : IsPlainMarker marker) {limit depth : Nat}
    (h : ClosesAt limit depth (marker ++ behind) length) :
    ∃ length', ClosesAt limit depth behind length' ∧
      IsMarked marker (behind.drop length') ((marker ++ behind).drop length) := by
  rw [← closing?_eq_some_iff, closing?_marker hmarker] at h
  obtain ⟨inner, hinner, rfl⟩ := Option.map_eq_some_iff.mp h
  refine ⟨inner, closing?_eq_some_iff.mp hinner, ?_⟩
  rw [Nat.add_comm, List.drop_length_add_append]
  exact .same _

theorem closing?_of_marked (hmarker : IsPlainMarker marker) {limit depth : Nat}
    (hline : EndsLine before)
    (h : closing? limit depth (before ++ (marker ++ behind)) = some length) :
    ∃ length', closing? limit depth (before ++ behind) = some length' ∧
      IsMarked marker ((before ++ behind).drop length')
        ((before ++ (marker ++ behind)).drop length) := by
  simp only [closing?_eq_some_iff] at h ⊢
  generalize hwhole : before ++ (marker ++ behind) = whole at h ⊢
  induction h generalizing before with
  | here hstep =>
      cases before with
      | nil => exact hwhole ▸ ClosesAt.behind_marker hmarker (hwhole ▸ .here hstep)
      | cons first before =>
          cases hwhole
          exact ⟨1, .here hstep, .insert (hline.drop 1)⟩
  | literal b hrest ih =>
      cases before with
      | nil => exact hwhole ▸ ClosesAt.behind_marker hmarker (hwhole ▸ hrest.literal b)
      | cons first before =>
          obtain ⟨rfl, hwhole⟩ := List.cons.inj hwhole
          cases before with
          | nil => exact absurd (hline _ rfl) (by decide)
          | cons second before =>
              cases hwhole
              obtain ⟨length', hlength', hmarked⟩ := ih (hline.drop 2) rfl
              exact ⟨length' + 2, hlength'.literal b, hmarked⟩
  | byte hb hstep hrest ih =>
      cases before with
      | nil => exact hwhole ▸ ClosesAt.behind_marker hmarker (hwhole ▸ .byte hb hstep hrest)
      | cons first before =>
          cases hwhole
          obtain ⟨length', hlength', hmarked⟩ := ih (hline.drop 1) rfl
          exact ⟨length' + 1, .byte hb hstep hlength', hmarked⟩

end Group

namespace IsMarked

variable {source target : Text}

theorem head?_eq (h : IsMarked marker source target) (hmarker : IsPlainMarker marker)
    (hhead : target.head? ≠ some ('%' : UInt8)) : source.head? = target.head? := by
  cases h with
  | same => rfl
  | @insert before behind =>
      cases before with
      | cons b rest => rfl
      | nil =>
          rw [List.nil_append, List.head?_append_of_ne_nil _ hmarker.ne_nil] at hhead
          exact absurd hmarker.head hhead

theorem exists_cons (h : IsMarked marker source target) (hmarker : IsPlainMarker marker)
    {b : UInt8} {rest : Text} (htarget : target = b :: rest) (hb : b ≠ '%') :
    ∃ rest', source = b :: rest' ∧ IsMarked marker rest' rest := by
  subst htarget
  generalize hwhole : b :: rest = whole at h
  cases h with
  | same => exact ⟨rest, hwhole.symm, .same rest⟩
  | @insert before behind hline =>
      cases before with
      | nil =>
          obtain ⟨first, others, hfirst⟩ := List.exists_cons_of_ne_nil hmarker.ne_nil
          have hhead := hmarker.head
          rw [hfirst] at hwhole hhead
          cases hwhole
          exact absurd (Option.some.inj hhead) hb
      | cons first before =>
          cases hwhole
          exact ⟨before ++ behind, rfl, .insert (hline.drop 1)⟩

end IsMarked

/-- What the scanner finds in a marked text it finds without the marker, with the same rest. -/
structure SkipsMarkers (marker : Text) (scan : Text → Option Nat) : Prop where
  skip : ∀ {source target : Text} {length : Nat}, IsMarked marker source target →
    scan target = some length → ∃ length', scan source = some length' ∧
      IsMarked marker (source.drop length') (target.drop length)

namespace SkipsMarkers

variable {first second : Text → Option Nat}

theorem seq (hfirst : SkipsMarkers marker first) (hsecond : SkipsMarkers marker second) :
    SkipsMarkers marker fun text => do
      let before ← first text
      let behind ← second (text.drop before)
      return before + behind := by
  refine ⟨?_⟩
  intro source target length h hlength
  obtain ⟨before, hbefore, hlength⟩ := Option.bind_eq_some_iff.mp hlength
  obtain ⟨behind, hbehind, hlength⟩ := Option.bind_eq_some_iff.mp hlength
  cases hlength
  obtain ⟨before', hbefore', hrest⟩ := hfirst.skip h hbefore
  obtain ⟨behind', hbehind', hrest'⟩ := hsecond.skip hrest hbehind
  rw [List.drop_drop, List.drop_drop] at hrest'
  exact ⟨before' + behind', by simp [hbefore', hbehind'], hrest'⟩

theorem behind_opener (hmarker : IsPlainMarker marker) {scan inner : Text → Option Nat}
    {opener : UInt8} (hopener : isQuiet opener = false)
    (hscan : ∀ {text length}, scan text = some length ↔
      ∃ rest found, text = opener :: rest ∧ inner rest = some found ∧ length = found + 1)
    (h : SkipsMarkers marker inner) : SkipsMarkers marker scan := by
  refine ⟨?_⟩
  intro source target length hmarked hlength
  obtain ⟨rest, found, rfl, hfound, rfl⟩ := hscan.mp hlength
  have hpercent : opener ≠ '%' := by
    rintro rfl
    cases hopener
  obtain ⟨rest', rfl, hrest⟩ := hmarked.exists_cons hmarker rfl hpercent
  obtain ⟨found', hfound', hbehind⟩ := h.skip hrest hfound
  exact ⟨found' + 1, hscan.mpr ⟨rest', found', rfl, hfound', rfl⟩, hbehind⟩

end SkipsMarkers

namespace Group

theorem findIdx?_skipsMarkers (hmarker : IsPlainMarker marker) {closer : UInt8}
    (hcloser : isQuiet closer = false) :
    SkipsMarkers marker fun text => (text.findIdx? (· == closer)).map (· + 1) := by
  refine ⟨?_⟩
  intro source target length h hlength
  cases h with
  | same => exact ⟨length, hlength, .same _⟩
  | @insert before behind hline =>
      obtain ⟨index, hindex, rfl⟩ := Option.map_eq_some_iff.mp hlength
      have hnone : marker.findIdx? (· == closer) = none :=
        List.findIdx?_eq_none_iff.mpr fun b hb => beq_false_of_ne (hmarker.ne hb hcloser)
      simp only [List.findIdx?_append, hnone, Option.none_or] at hindex ⊢
      cases hfirst : before.findIdx? (· == closer) with
      | some first =>
          rw [hfirst] at hindex
          cases hindex
          have hlt := (List.findIdx?_eq_some_iff_getElem.mp hfirst).1
          exact ⟨index + 1, rfl, IsMarked.drop hline hlt⟩
      | none =>
          rw [hfirst, Option.none_or] at hindex
          obtain ⟨_, hbehind, rfl⟩ := Option.map_eq_some_iff.mp hindex
          obtain ⟨second, hsecond, rfl⟩ := Option.map_eq_some_iff.mp hbehind
          refine ⟨before.length + (second + 1), by simp [hsecond]; omega, ?_⟩
          rw [show second + marker.length + before.length + 1 =
            before.length + marker.length + (second + 1) by omega, IsMarked.drop_behind]
          exact .same _

theorem flat?_skipsMarkers (hmarker : IsPlainMarker marker) {opener closer : UInt8}
    (hopener : isQuiet opener = false) (hcloser : isQuiet closer = false) :
    SkipsMarkers marker (flat? opener closer) := by
  refine .behind_opener hmarker hopener ?_ (findIdx?_skipsMarkers hmarker hcloser)
  intro text length
  rw [flat?_eq_some_iff_findIdx?]
  simp

theorem closing?_skipsMarkers (hmarker : IsPlainMarker marker) (limit depth : Nat) :
    SkipsMarkers marker (closing? limit depth) := by
  refine ⟨?_⟩
  intro source target length h hlength
  cases h with
  | same => exact ⟨length, hlength, .same _⟩
  | insert hline => exact closing?_of_marked hmarker hline hlength

theorem braced?_skipsMarkers (hmarker : IsPlainMarker marker) (limit : Nat) :
    SkipsMarkers marker (braced? limit) :=
  .behind_opener hmarker (by decide) braced?_eq_some_iff_closing?
    (closing?_skipsMarkers hmarker limit 0)

end Group

/-! ## Arguments -/

namespace Recognizer

variable {source target : Text} {length : Nat}

theorem citationArguments?_skipsMarkers (hmarker : IsPlainMarker marker) (count : Nat) :
    SkipsMarkers marker (citationArguments? count) := by
  have hargument : SkipsMarkers marker Group.argument? :=
    Group.flat?_skipsMarkers hmarker (by decide) (by decide)
  have hoptional : SkipsMarkers marker Group.optional? :=
    Group.flat?_skipsMarkers hmarker (by decide) (by decide)
  induction count with
  | zero =>
      rw [citationArguments?_zero]
      exact hargument
  | succ count ih =>
      refine ⟨?_⟩
      intro source target length h hlength
      have hhead : target.head? ≠ some ('%' : UInt8) := by
        intro hpercent
        rw [citationArguments?_succ, if_neg (by rw [hpercent]; decide)] at hlength
        have hbrace := Group.head?_of_flat?_eq_some hlength
        rw [hpercent] at hbrace
        revert hbrace
        decide
      rw [citationArguments?_succ, h.head?_eq hmarker hhead]
      rw [citationArguments?_succ] at hlength
      split at hlength
      · next hbracket =>
          rw [if_pos hbracket]
          exact (hoptional.seq ih).skip h hlength
      · next hbracket =>
          rw [if_neg hbracket]
          exact hargument.skip h hlength

theorem commandArguments?_skipsMarkers (hmarker : IsPlainMarker marker) (word : Text) :
    SkipsMarkers marker (commandArguments? word) := by
  have hargument : SkipsMarkers marker Group.argument? :=
    Group.flat?_skipsMarkers hmarker (by decide) (by decide)
  rw [commandArguments?_eq]
  split
  · exact hargument
  · split
    · exact citationArguments?_skipsMarkers hmarker 2
    · split
      · exact hargument.seq hargument
      · exact ⟨fun _ hlength => nomatch hlength⟩

theorem isSome_definitionArguments?_of_marked (hmarker : IsPlainMarker marker)
    (h : IsMarked marker source target) (hsome : (definitionArguments? target).isSome = true) :
    (definitionArguments? source).isSome = true := by
  simp only [Option.isSome_iff_exists, definitionArguments?_eq_some_iff] at hsome
  obtain ⟨length, hsome⟩ := hsome
  induction hsome generalizing source with
  | last hgroup _ | brace hgroup _ _ =>
      obtain ⟨group', hgroup', -⟩ := (Group.braced?_skipsMarkers hmarker 1).skip h hgroup
      exact isSome_definitionArguments?_of_braced (Option.isSome_of_eq_some hgroup')
  | bracket hgroup _ ih =>
      have hskips : SkipsMarkers marker Group.optional? :=
        Group.flat?_skipsMarkers hmarker (by decide) (by decide)
      obtain ⟨group', hgroup', hrest⟩ := hskips.skip h hgroup
      rw [isSome_definitionArguments?_of_optional hgroup']
      exact ih hrest

end Recognizer

end Groups

end LatexIntegrity
