import LatexIntegrity.Region.Recognizer
import LatexIntegrity.Proofs.Rewriting.Scanners
import LatexIntegrity.Proofs.Markup.Locality

/-!
# What a rewriting inserts

A byte that no key holds is found in a rewritten text either where the text before the
rewriting has it or within something that the rewriting has inserted.
-/

namespace LatexIntegrity

/--
A rewriting whose insertions are `allowed`, given a key, what takes its place, and the two
texts behind them.  A guard takes the place of no key.
-/
inductive RewritesWhere (allowed : Text → Text → Text → Text → Prop) :
    LeftContext → Text → Text → Prop
  | nil (context : LeftContext) : RewritesWhere allowed context [] []
  | copy (b : UInt8) {context : LeftContext} {source target : Text} :
      RewritesWhere allowed (context.push b) source target →
        RewritesWhere allowed context (b :: source) (b :: target)
  | replace {context : LeftContext} {key chunk source target : Text} :
      context.escaped = false → key ≠ [] → (∀ b ∈ key, isOrdinary b = true) → IsInert chunk →
        allowed key chunk source target →
          RewritesWhere allowed (context.pushAll chunk) source target →
            RewritesWhere allowed context (key ++ source) (chunk ++ target)
  | guard {context : LeftContext} {source target : Text} :
      context = ⟨false, true⟩ → allowed [] dollarGuard source target →
        RewritesWhere allowed ⟨false, false⟩ source target →
          RewritesWhere allowed context source (dollarGuard ++ target)

theorem Rewrites.withoutBrackets {context : LeftContext} {source target : Text}
    (h : Rewrites context source target) :
    RewritesWhere (fun _ chunk _ _ => (']' : UInt8) ∉ chunk) context source target := by
  induction h with
  | nil => exact .nil _
  | copy b _ ih => exact .copy b ih
  | replace hescaped hkey hordinary hinert _ ih =>
      exact .replace hescaped hkey hordinary hinert hinert.bracket ih
  | guard hcontext _ ih => exact .guard hcontext (by decide) ih

namespace RewritesWhere

variable {allowed : Text → Text → Text → Text → Prop}
variable {context : LeftContext} {source target : Text}

theorem rewrites (h : RewritesWhere allowed context source target) :
    Rewrites context source target := by
  induction h with
  | nil => exact .nil _
  | copy b _ ih => exact .copy b ih
  | replace hescaped hkey hordinary hinert _ _ ih =>
      exact .replace hescaped hkey hordinary hinert ih
  | guard hcontext _ _ ih => exact .guard hcontext ih

theorem copies (bytes : Text)
    (h : RewritesWhere allowed (context.pushAll bytes) source target) :
    RewritesWhere allowed context (bytes ++ source) (bytes ++ target) := by
  induction bytes generalizing context with
  | nil => exact h
  | cons b rest ih => exact .copy b (ih h)

theorem cons_target {b : UInt8} (h : RewritesWhere allowed context source (b :: target))
    (hdollar : context.dollar = false) (hb : isCopyable b = true) :
    ∃ rest, source = b :: rest ∧ RewritesWhere allowed (context.push b) rest target := by
  generalize htarget : b :: target = whole at h
  cases h with
  | nil => cases htarget
  | copy first hrest =>
      cases htarget
      exact ⟨_, rfl, hrest⟩
  | replace _ _ _ hinert _ _ =>
      obtain ⟨first, rest, rfl, hfirst⟩ := hinert.exists_cons
      cases htarget
      rw [hb] at hfirst
      cases hfirst
  | guard hcontext _ _ =>
      rw [hcontext] at hdollar
      cases hdollar

/-! ## The first occurrence of a byte -/

/--
Where the first `c` of a target comes from: it is copied, or it is part of what was inserted
for a key, in front of which the source has none.
-/
inductive FirstByte (allowed : Text → Text → Text → Text → Prop) (c : UInt8)
    (source target : Text) (index : Nat) : Prop
  | copied {index' : Nat} {before : LeftContext} :
      source.findIdx? (· == c) = some index' →
        RewritesWhere allowed (before.push c) (source.drop (index' + 1))
          (target.drop (index + 1)) →
        FirstByte allowed c source target index
  | inserted {before key chunk behind source' target' : Text} :
      allowed key chunk source' target' → source = before ++ (key ++ source') →
        c ∉ before ++ key → c :: behind <:+ chunk →
          target.drop index = c :: behind ++ target' → FirstByte allowed c source target index

variable {c : UInt8} {index : Nat}

theorem FirstByte.append {bytes chunk : Text} (hbytes : c ∉ bytes) (hchunk : c ∉ chunk)
    (h : FirstByte allowed c source target index) :
    FirstByte allowed c (bytes ++ source) (chunk ++ target) (index + chunk.length) := by
  cases h with
  | @copied index' before hindex' hbehind =>
      have hnone : bytes.findIdx? (· == c) = none :=
        List.findIdx?_eq_none_iff.mpr fun b hb => beq_eq_false_iff_ne.mpr (by
          rintro rfl
          exact hbytes hb)
      refine @FirstByte.copied _ _ _ _ _ (index' + bytes.length) before ?_ ?_
      · rw [List.findIdx?_append, hnone, Option.none_or, hindex']
        rfl
      · rwa [Nat.add_right_comm, Nat.add_comm _ bytes.length, List.drop_length_add_append,
          Nat.add_right_comm, Nat.add_comm _ chunk.length, List.drop_length_add_append]
  | @inserted before key inner behind source' target' hallowed hsource hnot hsuffix htarget =>
      refine @FirstByte.inserted _ _ _ _ _ (bytes ++ before) key inner behind source' target'
        hallowed ?_ ?_ hsuffix ?_
      · rw [hsource, List.append_assoc]
      · rw [List.append_assoc, List.mem_append, not_or]
        exact ⟨hbytes, hnot⟩
      · rwa [Nat.add_comm, List.drop_length_add_append]

theorem firstByte_of_insertion {key chunk : Text} (hkey : c ∉ key)
    (hallowed : allowed key chunk source target)
    (ih : ∀ {index}, target.findIdx? (· == c) = some index →
      FirstByte allowed c source target index)
    (hindex : (chunk ++ target).findIdx? (· == c) = some index) :
    FirstByte allowed c (key ++ source) (chunk ++ target) index := by
  rw [List.findIdx?_append] at hindex
  cases hchunk : chunk.findIdx? (· == c) with
  | some inner =>
      rw [hchunk] at hindex
      cases hindex
      obtain ⟨hlt, hc, -⟩ := List.findIdx?_eq_some_iff_getElem.mp hchunk
      have hdrop := List.drop_eq_getElem_cons hlt
      rw [beq_iff_eq.mp hc] at hdrop
      refine @FirstByte.inserted _ _ _ _ _ [] key chunk (chunk.drop (index + 1)) source target
        hallowed rfl hkey (hdrop ▸ List.drop_suffix index chunk) ?_
      rw [List.drop_append_of_le_length (Nat.le_of_lt hlt), hdrop]
  | none =>
      rw [hchunk, Option.none_or] at hindex
      obtain ⟨shorter, hshorter, rfl⟩ := Option.map_eq_some_iff.mp hindex
      refine (ih hshorter).append hkey fun hmem => ?_
      have hne := List.findIdx?_eq_none_iff.mp hchunk c hmem
      rw [beq_self_eq_true] at hne
      cases hne

theorem firstByte (h : RewritesWhere allowed context source target)
    (hc : isOrdinary c = false) (hindex : target.findIdx? (· == c) = some index) :
    FirstByte allowed c source target index := by
  induction h generalizing index with
  | nil => cases hindex
  | @copy b context source target hrest ih =>
      rw [List.findIdx?_cons] at hindex
      split at hindex
      · next hb =>
          cases hindex
          obtain rfl := beq_iff_eq.mp hb
          exact @FirstByte.copied _ _ _ _ _ 0 context (by simp [List.findIdx?_cons]) hrest
      · next hb =>
          obtain ⟨shorter, hshorter, rfl⟩ := Option.map_eq_some_iff.mp hindex
          have hnot : c ∉ [b] := by
            rw [List.mem_singleton]
            exact fun hcb => hb (beq_iff_eq.mpr hcb.symm)
          exact @FirstByte.append _ _ _ _ _ [b] [b] hnot hnot (ih hshorter)
  | replace _ _ hordinary _ hallowed _ ih =>
      have hkey : c ∉ _ := fun hmem => by
        rw [hordinary c hmem] at hc
        cases hc
      exact firstByte_of_insertion hkey hallowed ih hindex
  | guard _ hallowed _ ih =>
      exact @firstByte_of_insertion _ _ _ _ _ [] _ (by simp) hallowed ih hindex

/-! ## Bracket groups -/

theorem optional? (h : RewritesWhere allowed context source target)
    (hbracket : ∀ {key chunk source target}, allowed key chunk source target →
      (']' : UInt8) ∉ chunk) (hdollar : context.dollar = false) {length : Nat}
    (hlength : Group.optional? target = some length) :
    ∃ length', Group.optional? source = some length' ∧
      RewritesWhere allowed ⟨false, false⟩ (source.drop length') (target.drop length) := by
  obtain ⟨rest, index, rfl, hindex, rfl⟩ := Group.flat?_eq_some_iff_findIdx?.mp hlength
  obtain ⟨rest', rfl, hrest⟩ := h.cons_target hdollar (by decide)
  cases hrest.firstByte (by decide) hindex with
  | @copied index' before hindex' hbehind =>
      exact ⟨index' + 2, Group.flat?_eq_some_iff_findIdx?.mpr ⟨rest', index', rfl, hindex', rfl⟩,
        hbehind⟩
  | inserted hallowed _ _ hsuffix =>
      exact absurd (hsuffix.subset List.mem_cons_self) (hbracket hallowed)

theorem optionalArguments? (count : Nat) (h : RewritesWhere allowed context source target)
    (hbracket : ∀ {key chunk source target}, allowed key chunk source target →
      (']' : UInt8) ∉ chunk) (hdollar : context.dollar = false) {options : Nat}
    (hoptions : Recognizer.optionalArguments? count target = some options) :
    ∃ options' before, Recognizer.optionalArguments? count source = some options' ∧
      before.dollar = false ∧
        RewritesWhere allowed before (source.drop options') (target.drop options) := by
  induction count generalizing context source target options with
  | zero =>
      cases hoptions
      exact ⟨0, context, rfl, hdollar, h⟩
  | succ count ih =>
      rw [Recognizer.optionalArguments?] at hoptions ⊢
      by_cases hhead : target.head? = some ('[' : UInt8)
      · rw [if_pos hhead] at hoptions
        obtain ⟨first, hfirst, hoptions⟩ := Option.bind_eq_some_iff.mp hoptions
        obtain ⟨others, hothers, hoptions⟩ := Option.bind_eq_some_iff.mp hoptions
        cases hoptions
        obtain ⟨first', hfirst', hbehind⟩ := h.optional? hbracket hdollar hfirst
        obtain ⟨others', before, hothers', hbefore, hrest⟩ := ih hbehind rfl hothers
        rw [List.drop_drop, List.drop_drop] at hrest
        rw [if_pos (h.rewrites.head?_target hdollar (by decide) hhead), hfirst']
        exact ⟨first' + others', before, by simp [hothers'], hbefore, hrest⟩
      · rw [if_neg hhead] at hoptions
        cases hoptions
        rw [if_neg fun hhead' => hhead (h.rewrites.head?_source hdollar (by decide) hhead')]
        exact ⟨0, context, rfl, hdollar, h⟩

end RewritesWhere

end LatexIntegrity
