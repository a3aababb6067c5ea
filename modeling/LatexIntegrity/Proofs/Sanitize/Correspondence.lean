import LatexIntegrity.Proofs.Sanitize.OnlyTables

/-!
# Relations between a text and what is written in its place

A relation between texts that concatenation keeps, and that holds of every key and its
replacement, holds of a text and the output of a pass.
-/

namespace LatexIntegrity

open EscapePass (State)

structure EscapeTable.Respects (table : EscapeTable) (relates : Text → Text → Prop) : Prop where
  refl : ∀ text, relates text text
  append : ∀ {source target source' target' : Text}, relates source target →
    relates source' target' → relates (source ++ source') (target ++ target')
  gap : ∀ (state : State) {source target : Text}, relates source target →
    relates source (state.gap source.head? ++ target)
  key_ne_nil : ∀ entry ∈ table.entries, entry.key ≠ []
  replace : ∀ entry ∈ table.entries, ∀ state : State,
    relates entry.key (state.written entry.replacement)

variable {table : EscapeTable} {relates : Text → Text → Prop}

theorem EscapeTable.Respects.copy (h : table.Respects relates) (state : State) {b : UInt8}
    {rest target : Text} (hrest : relates rest target) :
    relates (b :: rest) (state.gap (some b) ++ b :: target) :=
  h.gap state (h.append (h.refl [b]) hrest)

theorem EscapePass.relates_run (h : table.Respects relates) (keepEscaped : Bool) (state : State)
    (text : Text) : relates text (run table keepEscaped none state text) := by
  fun_induction run table keepEscaped none state text with
  | case1 state => simpa [State.gap] using h.refl []
  | case2 state b rest entry hmatch hescaped ih => exact h.copy state ih
  | case3 state b rest entry hmatch hescaped ih =>
      obtain ⟨hentry, behind, hbehind⟩ := EscapeTable.match?_eq_some hmatch
      rw [EscapeRule.drop_key (h.key_ne_nil entry hentry) hbehind] at ih ⊢
      rw [← hbehind]
      exact h.append (h.replace entry hentry state) ih
  | case4 state b rest hmatch ih => exact h.copy state ih

theorem relates_normalizeTypography (h : table.Respects relates) (text : Text) :
    relates text (normalizeTypography table text) := by
  rw [normalizeTypography_eq_run]
  exact EscapePass.relates_run h false _ text

namespace Escaper

def RespectsRegions (escaper : Escaper) (relates : Text → Text → Prop) : Prop :=
  ∀ {context : LeftContext} {text : Text} {kind : RegionKind} {construct : Construct},
    construct? context text = some (kind, construct) →
      relates (text.take construct.length)
        (escaper.shielded ⟨kind, construct.name, text.take construct.length⟩)

theorem relates_outputFrom {escaper : Escaper} (hstays : escaper.table.StaysInside)
    (h : escaper.table.Respects relates) (hregions : escaper.RespectsRegions relates)
    (state : State) (text : Text) : relates text (escaper.outputFrom state text) := by
  induction state, text using pass_induction hstays with
  | nil state =>
      rw [outputFrom_nil]
      exact h.refl []
  | construct state hbody hfound ih =>
      have hregion := hregions hfound
      rw [List.take_left] at hregion
      rw [outputFrom_construct hbody hfound, ← List.append_assoc]
      exact h.append (h.gap state hregion) ih
  | replace state hentry hkey hnone hescaped hmatch ih =>
      rw [outputFrom_replace hnone hmatch hescaped hkey]
      exact h.append (h.replace _ hentry state) ih
  | copy state hnone hkey ih =>
      rw [outputFrom_copy hnone hkey]
      exact h.copy state (ih _ _ List.suffix_rfl)

end Escaper

namespace EscapeTables

variable {tables : EscapeTables}

theorem respectsRegions_proseEscaper (hstays : tables.cells.StaysInside)
    (h : tables.cells.Respects relates) : tables.proseEscaper.RespectsRegions relates := by
  intro context text kind construct hfound
  cases htable : Region.isTable ⟨kind, construct.name, text.take construct.length⟩ with
  | false =>
      rw [proseEscaper_of_not_table htable]
      exact h.refl _
  | true =>
      obtain rfl : kind = .environment := Region.kind_of_isTable htable
      obtain ⟨length, name⟩ := construct
      obtain ⟨hshielded, inside, rest, rfl, rfl, -⟩ := exists_wrap_of_construct? hfound
      have hname := Recognizer.isName_of_isShieldedEnvironment hshielded
      have houtput := @Escaper.relates_outputFrom relates tables.cellEscaper hstays h
        (fun _ => h.refl _) (.start []) (inside.drop (Tabular.arguments name inside))
      have hinside := h.append (h.refl (inside.take (Tabular.arguments name inside))) houtput
      rw [List.take_append_drop] at hinside
      rw [proseEscaper_table htable]
      simp only [List.take_left]
      rw [Tabular.sanitize_wrap hname hstays]
      exact h.append (h.refl _) (h.append hinside (h.refl _))

theorem relates_proseOutput
    (hprose : tables.prose.StaysInside ∧ tables.prose.Respects relates)
    (hcells : tables.cells.StaysInside ∧ tables.cells.Respects relates) (text : Text) :
    relates text (tables.proseEscaper.output text) :=
  Escaper.relates_outputFrom hprose.1 hprose.2 (respectsRegions_proseEscaper hcells.1 hcells.2)
    (.start []) text

end EscapeTables

end LatexIntegrity
