import LatexIntegrity.Proofs.Sanitize.OpenArguments

/-!
# Escaping a text twice

What a pass writes for a settled text, it leaves as it is when it reads it again, whatever
arguments the text leaves open.
-/

namespace LatexIntegrity

open EscapePass (State)

namespace Escaper

variable {escaper : Escaper} {state : State} {written : LeftContext} {text target : Text}

def CopiesOthers (escaper : Escaper) : Prop :=
  ∀ region : Region, region.kind ≠ .environment → escaper.shielded region = region.body

def Settles (escaper : Escaper) (context : LeftContext) (text : Text) : Prop :=
  ∀ region ∈ shieldedFrom context text,
    escaper.shielded ⟨region.kind, region.name, escaper.shielded region⟩ = escaper.shielded region

def Keeps (escaper : Escaper) (written : LeftContext) (target : Text) : Prop :=
  ∀ last : Option UInt8, escaper.outputFrom ⟨written, last, false⟩ target = target

theorem Keeps.region {kind : RegionKind} {name body : Text} (hbody : body ≠ [])
    (hfound : construct? written (body ++ target) = some (kind, ⟨body.length, name⟩))
    (hsame : escaper.shielded ⟨kind, name, body⟩ = body)
    (hrest : escaper.Keeps (written.pushAll body) target) :
    escaper.Keeps written (body ++ target) := by
  intro last
  rw [outputFrom_construct hbody hfound, hsame]
  exact congrArg (body ++ ·) (hrest _)

theorem Keeps.of_construct? (hothers : escaper.CopiesOthers) {kind : RegionKind}
    {found : Construct} (hkind : kind ≠ .environment)
    (hfound : construct? written target = some (kind, found))
    (hrest : escaper.Keeps (written.pushAll (target.take found.length))
      (target.drop found.length)) : escaper.Keeps written target := by
  obtain ⟨-, hpos, hfit⟩ := construct?_spec hfound
  have hlength : (target.take found.length).length = found.length := List.length_take_of_le hfit
  have hagain : construct? written (target.take found.length ++ target.drop found.length) =
      some (kind, ⟨(target.take found.length).length, found.name⟩) := by
    rw [List.take_append_drop, hlength]
    exact hfound
  have hkeeps := Keeps.region (List.ne_nil_of_length_pos (by rw [hlength]; exact hpos)) hagain
    (hothers _ hkind) hrest
  rwa [List.take_append_drop] at hkeeps

theorem accepts_keeps (hothers : escaper.CopiesOthers) : escaper.Accepts escaper.Keeps where
  write hnone hkey hrest last := by
    rw [outputFrom_copy hnone hkey]
    exact congrArg (_ :: ·) (hrest _)
  add hbody hkind hfound hrest := .region hbody hfound (hothers _ hkind) hrest

variable (htable : escaper.table.ClosesBraces) (hregions : escaper.PreservesRegions)
variable (hothers : escaper.CopiesOthers)

include htable hregions hothers

theorem keeps_outputFrom (state : State) (text : Text) (written : LeftContext)
    (h : state.Knows written)
    (hsettled : ∀ place ∈ plainPlacesFrom state.context text, place.IsSettled escaper.table)
    (hagain : escaper.Settles state.context text) :
    escaper.Keeps written (escaper.outputFrom state text) := by
  induction state, text using pass_induction htable.staysInside generalizing written with
  | nil state =>
      rw [outputFrom_nil]
      exact fun _ => outputFrom_nil
  | @construct state kind name body rest hbody hfound ih =>
      have hregion : escaper.Preserves ⟨kind, name, body⟩ := by simpa using hregions hfound
      have hreached := IsReached.construct hbody hfound
      have hplaces := hreached.isSettled hsettled
      obtain ⟨hfound', hbehind⟩ := construct?_outputFrom htable.toIsInert hregions h hbody hfound
        fun place hplace => (hplaces place hplace).kept
      have hsame := hagain ⟨kind, name, body⟩
        (by rw [shieldedFrom_construct hbody hfound]; exact List.mem_cons_self)
      rw [outputFrom_construct hbody hfound]
      refine (accepts_keeps hothers).gap htable.toIsInert h
        (.region (hregion.ne_nil hbody) hfound' hsame ?_)
      rw [hbehind]
      exact ih _ (.pass state hbody) hplaces fun region hmem =>
        hagain region (hreached.regions region hmem)
  | @replace state entry rest hentry hkey hnone hescaped hmatch ih =>
      have hreached := IsReached.key hkey (htable.staysInside entry hentry).2 hnone
      exact (accepts_keeps hothers).replaces htable.toIsKnown hregions h hentry hnone hescaped
        hmatch (fun place hplace => (hsettled place hplace).kept) fun written' hknows =>
          ih written' hknows (hreached.isSettled hsettled) fun region hmem =>
            hagain region (hreached.regions region hmem)
  | @copy state b rest hnone hkey ih =>
      have hreached := IsReached.plain hnone
      have hplaces := hreached.isSettled hsettled
      have hhere := hsettled ⟨state.context, b :: rest⟩
        (mem_plainPlacesFrom_self hnone)
      have hknows := h.copied_push b
      rw [outputFrom_copy hnone hkey, gap_of_dollar h fun hb => hhere.dollar (by rw [hb]; rfl),
        List.nil_append]
      cases hfound : construct? written (b :: escaper.outputFrom (state.copy b) rest) with
      | none =>
          have hrewrites := rewrites_outputFrom htable.toIsInert hregions (state.copy b) rest _
            hknows fun place hplace => (hplaces place hplace).kept
          exact (accepts_keeps hothers).write hfound
            (match?_outputFrom htable.toIsInert h hkey hrewrites)
            (ih _ rest List.suffix_rfl _ hknows hplaces fun region hmem =>
              hagain region (hreached.regions region hmem))
      | some found =>
          -- The construct ends with an insertion, behind which the pass goes on.
          obtain ⟨hkind, ⟨behind, state', hknows', htarget, hbehind⟩, hends⟩ :=
            resumesIn_behind_construct htable hregions h hnone hsettled hfound
          refine .of_construct? hothers hkind hfound ?_
          rw [htarget, hends]
          exact ih state' behind hbehind.suffix _ hknows' (hbehind.isSettled hplaces)
            fun region hmem => hagain region (hreached.regions region (hbehind.regions region hmem))

theorem output_output
    (hsettled : ∀ place ∈ plainPlaces text, place.IsSettled escaper.table)
    (hagain : ∀ region ∈ shieldedRegions text,
      escaper.shielded ⟨region.kind, region.name, escaper.shielded region⟩ =
        escaper.shielded region) :
    escaper.output (escaper.output text) = escaper.output text := by
  rw [plainPlaces_eq] at hsettled
  rw [shieldedRegions_eq] at hagain
  exact keeps_outputFrom htable hregions hothers (.start []) text _ (.start []) hsettled hagain none

end Escaper

end LatexIntegrity
