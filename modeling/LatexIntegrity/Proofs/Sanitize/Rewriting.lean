import LatexIntegrity.Proofs.Region.Places
import LatexIntegrity.Proofs.Region.Survival
import LatexIntegrity.Proofs.Rewriting.Basic
import LatexIntegrity.Proofs.Sanitize.Escaper

/-!
# Sanitization is a rewriting

The output of an escape pass is a rewriting of the text, whatever regions the text
has.  What the pass remembers of its output agrees with the context behind it.
-/

namespace LatexIntegrity

namespace EscapePass

theorem separator_eq_dollarGuard : separator = dollarGuard := by decide

/-- The state agrees with the context behind the bytes written so far. -/
structure State.Knows (state : State) (written : LeftContext) : Prop where
  escaped : written.escaped = state.context.escaped
  last : (state.last == some ('$' : UInt8)) = written.dollar
  inserted : state.inserted = true → written = ⟨false, true⟩ ∧ state.context = ⟨false, false⟩
  copied : state.inserted = false → written = state.context

namespace State.Knows

variable {state : State} {written : LeftContext}

theorem start (before : Text) : (State.start before).Knows (.after before) := by
  refine ⟨rfl, ?_, fun h => by simp [State.start] at h, fun _ => rfl⟩
  cases before with
  | nil => rfl
  | cons b rest => exact (LeftContext.pushAll_dollar .initial (List.cons_ne_nil b rest)).symm

theorem gap (h : state.Knows written) (b : UInt8) :
    (written.pushAll (state.gap (some b))).escaped = state.context.escaped ∧
      (b = '$' → written.pushAll (state.gap (some b)) = state.context) := by
  rw [State.gap]
  cases hinserted : state.inserted with
  | false => exact ⟨h.escaped, fun _ => h.copied hinserted⟩
  | true =>
      obtain ⟨hwritten, hcontext⟩ := h.inserted hinserted
      subst hwritten
      rw [hcontext]
      by_cases hb : b = '$'
      · subst hb
        exact ⟨rfl, fun _ => rfl⟩
      · simp [hb]

theorem copy (state : State) (b : UInt8) : (state.copy b).Knows (state.context.push b) :=
  ⟨rfl, rfl, nofun, fun _ => rfl⟩

theorem push (h : state.Knows written) (b : UInt8) : written.push b = state.context.push b := by
  rw [LeftContext.push, h.escaped]
  rfl

theorem copied_push (h : state.Knows written) (b : UInt8) :
    (state.copy b).Knows (written.push b) :=
  h.push b ▸ .copy state b

theorem pass (state : State) {bytes : Text} (hbytes : bytes ≠ []) :
    (state.pass bytes).Knows (state.context.pushAll bytes) :=
  ⟨rfl, (LeftContext.pushAll_dollar _ hbytes).symm, nofun, fun _ => rfl⟩

def separated (state : State) (replacement : Text) : Text :=
  if beginsWithDollar replacement && state.last == some ('$' : UInt8) then dollarGuard else []

theorem written_eq (state : State) (replacement : Text) :
    state.written replacement = separated state replacement ++ replacement := by
  rw [State.written, separator_eq_dollarGuard]
  rfl

theorem separated_spec (h : state.Knows written) (hescaped : state.context.escaped = false)
    (replacement : Text) :
    (written.pushAll (separated state replacement)).escaped = false ∧
      (beginsWithDollar replacement = true →
        written.pushAll (separated state replacement) = ⟨false, false⟩) := by
  have hfree := h.escaped.trans hescaped
  rw [separated, h.last]
  cases hbegins : beginsWithDollar replacement with
  | false => exact ⟨hfree, nofun⟩
  | true =>
      cases hdollar : written.dollar with
      | true => exact ⟨rfl, fun _ => rfl⟩
      | false =>
          exact ⟨hfree, fun _ => LeftContext.eq_mk hfree hdollar⟩

theorem replace (state : State) {entry : EscapeRule}
    (hcontext : state.context.pushAll entry.key = ⟨false, false⟩)
    (hinert : IsInert entry.replacement) {before : LeftContext}
    (hbefore : before.escaped = false) :
    (state.replace entry).Knows (before.pushAll entry.replacement) := by
  have hempty : entry.replacement.isEmpty = false := List.isEmpty_eq_false_iff.mpr hinert.ne_nil
  have hescaped := hinert.escaped_pushAll hbefore
  have hdollar := before.pushAll_dollar hinert.ne_nil
  have hlast : (state.replace entry).last = entry.replacement.getLast? := by
    rw [State.replace, hempty, if_neg Bool.false_ne_true]
  have hinserted : (state.replace entry).inserted =
      (before.pushAll entry.replacement).dollar := by
    rw [State.replace, hempty, if_neg Bool.false_ne_true, hdollar]
    rfl
  refine ⟨?_, ?_, fun h => ⟨?_, hcontext⟩, fun h => ?_⟩
  · exact hescaped.trans (congrArg LeftContext.escaped hcontext).symm
  · rw [hlast, hdollar]
  · exact LeftContext.eq_mk hescaped (hinserted.symm.trans h)
  · exact (LeftContext.eq_mk hescaped (hinserted.symm.trans h)).trans hcontext.symm

end State.Knows

end EscapePass

open EscapePass (State)
open Environment (wrap)

namespace Rewrites

variable {state : State} {written : LeftContext} {source target : Text}

theorem gap (h : state.Knows written) {next : Option UInt8}
    (hrest : Rewrites (written.pushAll (state.gap next)) source target) :
    Rewrites written source (state.gap next ++ target) := by
  rw [State.gap] at hrest ⊢
  split
  · next hguard =>
      rw [if_pos hguard] at hrest
      obtain ⟨hwritten, -⟩ := h.inserted (by
        rw [Bool.and_eq_true] at hguard
        exact hguard.1)
      subst hwritten
      rw [EscapePass.separator_eq_dollarGuard] at hrest ⊢
      exact .guard rfl hrest
  · next hguard =>
      rw [if_neg hguard] at hrest
      exact hrest

theorem replaceKey {entry : EscapeRule} (h : state.Knows written)
    (hescaped : state.context.escaped = false) (hkey : entry.key ≠ [])
    (hordinary : ∀ b ∈ entry.key, isOrdinary b = true) (hinert : IsInert entry.replacement)
    (hrest : Rewrites ((written.pushAll
      (State.Knows.separated state entry.replacement)).pushAll entry.replacement)
        source target) :
    Rewrites written (entry.key ++ source) (state.written entry.replacement ++ target) := by
  have hspec := (h.separated_spec hescaped entry.replacement).1
  rw [State.Knows.written_eq, List.append_assoc]
  rw [State.Knows.separated] at hrest hspec ⊢
  split
  · next hguard =>
      rw [if_pos hguard] at hrest
      rw [Bool.and_eq_true, h.last] at hguard
      have hwritten : written = ⟨false, true⟩ :=
        LeftContext.eq_mk (h.escaped.trans hescaped) hguard.2
      subst hwritten
      exact .guard rfl (.replace rfl hkey hordinary hinert hrest)
  · next hguard =>
      rw [if_neg hguard] at hrest hspec
      rw [List.nil_append]
      exact .replace hspec hkey hordinary hinert hrest

end Rewrites

/-! ## The whole output -/

def BytePlace.isDeleted (table : EscapeTable) (place : BytePlace) : Bool :=
  !place.context.escaped && (table.match? place.rest).any (·.replacement.isEmpty)

/-- The keys are ordinary bytes, and whatever is written in their place is inert. -/
structure EscapeTable.IsInert (table : EscapeTable) : Prop where
  staysInside : table.StaysInside
  ordinary : ∀ entry ∈ table.entries, ∀ b ∈ entry.key, isOrdinary b = true
  inert : ∀ entry ∈ table.entries, entry.replacement ≠ [] →
    LatexIntegrity.IsInert entry.replacement

namespace Escaper

/--
The bytes of a shielded region stay as they are, or the region is an environment that is
rewritten in its inside and is one again, whatever follows it.
-/
inductive Preserves (escaper : Escaper) (region : Region) : Prop
  | same : escaper.shielded region = region.body → Preserves escaper region
  | inside (name : Text) {inside inside' : Text} :
      region.body = wrap name inside → escaper.shielded region = wrap name inside' →
        Rewrites ⟨false, false⟩ inside inside' →
          (∀ context rest, context.escaped = false →
            construct? context (escaper.shielded region ++ rest) =
              some (region.kind, ⟨(escaper.shielded region).length, region.name⟩)) →
            Preserves escaper region

namespace Preserves

variable {escaper : Escaper} {region : Region} {context : LeftContext}

theorem bytes (h : escaper.Preserves region) (context : LeftContext) :
    Rewrites context region.body (escaper.shielded region) := by
  cases h with
  | same hsame =>
      rw [hsame]
      exact .refl context _
  | inside name hbody hshielded hinside =>
      rw [hbody, hshielded]
      refine Rewrites.copies _ ?_
      rw [Environment.pushAll_source]
      exact hinside.append (.refl _ _)

theorem behind (h : escaper.Preserves region) (context : LeftContext) :
    context.pushAll (escaper.shielded region) = context.pushAll region.body := by
  cases h with
  | same hsame => rw [hsame]
  | inside name hbody hshielded =>
      rw [hbody, hshielded, Environment.pushAll_wrap, Environment.pushAll_wrap]

theorem head (h : escaper.Preserves region) :
    (escaper.shielded region).head? = region.body.head? := by
  cases h with
  | same hsame => rw [hsame]
  | inside name hbody hshielded =>
      rw [hbody, hshielded]
      rfl

theorem ne_nil (h : escaper.Preserves region) (hbody : region.body ≠ []) :
    escaper.shielded region ≠ [] := by
  intro hnil
  have hsame := h.head
  rw [hnil] at hsame
  exact hbody (List.head?_eq_none_iff.mp hsame.symm)

end Preserves

def PreservesRegions (escaper : Escaper) : Prop :=
  ∀ {context text kind construct}, construct? context text = some (kind, construct) →
    escaper.Preserves ⟨kind, construct.name, text.take construct.length⟩

variable {escaper : Escaper}

/-- Where nothing is deleted, the output is a rewriting of the text. -/
theorem rewrites_outputFrom (htable : escaper.table.IsInert)
    (hregions : escaper.PreservesRegions) (state : State) (text : Text) (written : LeftContext)
    (h : state.Knows written)
    (hkept : ∀ place ∈ plainPlacesFrom state.context text,
      place.isDeleted escaper.table = false) :
    Rewrites written text (escaper.outputFrom state text) := by
  -- The invariant is what the pass knows of the context of the bytes that it has written.
  induction state, text using pass_induction htable.staysInside generalizing written with
  | nil state =>
      rw [outputFrom_nil]
      exact .nil _
  | @construct state kind name body rest hbody hfound ih =>
      obtain ⟨b, others, hcons⟩ := List.exists_cons_of_ne_nil hbody
      have hregion : escaper.Preserves ⟨kind, name, body⟩ := by
        simpa using hregions hfound
      obtain ⟨hgap, -⟩ := h.gap b
      have hhead : body.head? = some b := by
        rw [hcons]
        rfl
      rw [plainPlacesFrom_construct hbody hfound] at hkept
      rw [outputFrom_construct hbody hfound, hhead]
      refine .gap h (.append (hregion.bytes _) ?_)
      rw [hregion.behind, LeftContext.pushAll_congr hbody hgap]
      exact ih _ (.pass state hbody) hkept
  | @replace state entry rest hentry hkey hnone hescaped hmatch ih =>
      have hordinary := htable.ordinary entry hentry
      obtain ⟨hhere, hplaces⟩ := mem_plainPlacesFrom_key hkey
        (htable.staysInside entry hentry).2 hnone
      have hinert : IsInert entry.replacement := by
        refine htable.inert entry hentry fun hempty => ?_
        have hdeleted := hkept _ hhere
        simp [BytePlace.isDeleted, hescaped, hmatch, hempty] at hdeleted
      rw [outputFrom_replace hnone hmatch hescaped hkey]
      exact .replaceKey h hescaped hkey hordinary hinert
        (ih _ (.replace state (pushAll_of_isOrdinary hkey hordinary) hinert
            (h.separated_spec hescaped _).1)
          fun place hplace => hkept place (hplaces place hplace))
  | @copy state b rest hnone hkey ih =>
      rw [plainPlacesFrom_plain hnone] at hkept
      rw [outputFrom_copy hnone hkey]
      refine .gap h (.copy b ?_)
      rw [LeftContext.push, (h.gap b).1]
      exact ih _ rest List.suffix_rfl _ (.copy state b)
        fun place hplace => hkept place (List.mem_cons_of_mem _ hplace)

end Escaper

end LatexIntegrity
