import LatexIntegrity.Proofs.Region.Places
import LatexIntegrity.Proofs.Sanitize.Escaper

/-!
# A text and its output side by side

The output of an escape pass tracks the text if both can be read together: plain bytes
go from the one and come into the other, shielded regions are kept in both, and a
replacement may add regions of its own.  An output that tracks its text keeps all of
its shielded regions.
-/

namespace LatexIntegrity

open EscapePass (State)

namespace Escaper

/--
`Tracks escaper context source written target`: the rest `target` of the output, behind
`written`, tracks the rest `source` of the text, behind `context`.  It may be anything behind
the last region.
-/
inductive Tracks (escaper : Escaper) : LeftContext → Text → LeftContext → Text → Prop
  | rest {context : LeftContext} {source : Text} (written : LeftContext) (target : Text) :
      shieldedFrom context source = [] → Tracks escaper context source written target
  | drop {context written : LeftContext} {b : UInt8} {source target : Text} :
      construct? context (b :: source) = none →
        Tracks escaper (context.push b) source written target →
          Tracks escaper context (b :: source) written target
  | write {context written : LeftContext} {b : UInt8} {source target : Text} :
      construct? written (b :: target) = none →
        (written.escaped = true ∨ escaper.table.match? (b :: target) = none) →
          Tracks escaper context source (written.push b) target →
            Tracks escaper context source written (b :: target)
  | keep {context written : LeftContext} {region : Region} {source target : Text} :
      region.body ≠ [] → escaper.shielded region ≠ [] →
        construct? context (region.body ++ source) =
          some (region.kind, ⟨region.body.length, region.name⟩) →
        construct? written (escaper.shielded region ++ target) =
          some (region.kind, ⟨(escaper.shielded region).length, region.name⟩) →
        Tracks escaper (context.pushAll region.body) source
          (written.pushAll (escaper.shielded region)) target →
        Tracks escaper context (region.body ++ source) written
          (escaper.shielded region ++ target)
  | add {context written : LeftContext} {region : Region} {source target : Text} :
      region.body ≠ [] → region.kind ≠ .environment →
        construct? written (region.body ++ target) =
          some (region.kind, ⟨region.body.length, region.name⟩) →
        Tracks escaper context source (written.pushAll region.body) target →
          Tracks escaper context source written (region.body ++ target)

/--
A property of what is written behind a context, if plain bytes that stay as they are and
regions other than environments may be written one by one.
-/
structure Accepts (escaper : Escaper) (holds : LeftContext → Text → Prop) : Prop where
  write : ∀ {written : LeftContext} {b : UInt8} {target : Text},
    construct? written (b :: target) = none →
      (written.escaped = true ∨ escaper.table.match? (b :: target) = none) →
        holds (written.push b) target → holds written (b :: target)
  add : ∀ {written : LeftContext} {region : Region} {target : Text},
    region.body ≠ [] → region.kind ≠ .environment →
      construct? written (region.body ++ target) =
        some (region.kind, ⟨region.body.length, region.name⟩) →
      holds (written.pushAll region.body) target → holds written (region.body ++ target)

namespace Tracks

variable {escaper : Escaper} {context written : LeftContext}
variable {source target : Text}

theorem accepts : escaper.Accepts (escaper.Tracks context source) :=
  ⟨.write, .add⟩

theorem sublist_shieldedFrom (h : escaper.Tracks context source written target) {α : Type}
    (view : Region → α)
    (hview : ∀ region : Region,
      view ⟨region.kind, region.name, escaper.shielded region⟩ = view region) :
    ((shieldedFrom context source).map view).Sublist
      ((shieldedFrom written target).map view) := by
  induction h with
  | rest _ _ hlast =>
      rw [hlast]
      exact List.nil_sublist _
  | drop hnone _ ih => rwa [shieldedFrom_plain hnone]
  | write hnone _ _ ih => rwa [shieldedFrom_plain hnone]
  | @keep _ _ region _ _ hbody hshielded hsource htarget _ ih =>
      rw [shieldedFrom_construct hbody hsource, shieldedFrom_construct hshielded htarget,
        List.map_cons, List.map_cons, hview region]
      exact ih.cons_cons _
  | add hbody _ htarget _ ih =>
      rw [shieldedFrom_construct hbody htarget]
      exact ih.cons _

/-! ## Runs of plain bytes -/

theorem drops {bytes : Text} (hbytes : ∀ b ∈ bytes, b ≠ '%' ∧ b ≠ '$' ∧ b ≠ '\\')
    (h : escaper.Tracks (context.pushAll bytes) source written target) :
    escaper.Tracks context (bytes ++ source) written target := by
  induction bytes generalizing context with
  | nil => exact h
  | cons b rest ih =>
      obtain ⟨hpercent, hdollar, hbackslash⟩ := hbytes b List.mem_cons_self
      exact .drop (construct?_eq_none_of_head hpercent hdollar hbackslash _)
        (ih (fun b hb => hbytes b (List.mem_cons_of_mem _ hb)) h)

theorem drops_key {bytes : Text} (hne : bytes ≠ [])
    (htail : ∀ b ∈ bytes.tail, b ≠ '%' ∧ b ≠ '$' ∧ b ≠ '\\')
    (hnone : construct? context (bytes ++ source) = none)
    (h : escaper.Tracks (context.pushAll bytes) source written target) :
    escaper.Tracks context (bytes ++ source) written target := by
  obtain ⟨b, rest, rfl⟩ := List.exists_cons_of_ne_nil hne
  exact .drop hnone (drops htail h)

end Tracks

end Escaper

end LatexIntegrity
