import LatexIntegrity.Sanitize.Document
import LatexIntegrity.Proofs.Rewriting.Scanners
import LatexIntegrity.Proofs.Sanitize.Escaper

/-!
# Typographic characters

The keys of a typographic table lie outside of ASCII and their replacements inside of
it.  No key is left in a text whose typographic characters are replaced, and none comes
back by a rewriting.
-/

namespace LatexIntegrity

theorem Text.infix_of_infix_append {first : UInt8} {bytes before rest : Text}
    (hfirst : first ∉ before) (h : first :: bytes <:+: before ++ rest) :
    first :: bytes <:+: rest := by
  induction before with
  | nil => exact h
  | cons b others ih =>
      rw [List.mem_cons, not_or] at hfirst
      rw [List.cons_append] at h
      rcases List.infix_cons_iff.mp h with hstarts | hwithin
      · exact absurd (List.cons_prefix_cons.mp hstarts).1 hfirst.1
      · exact ih hfirst.2 hwithin

namespace EscapeTable

/-- The keys lie outside of ASCII, and what replaces them is not empty and lies inside. -/
structure IsTypographic (table : EscapeTable) : Prop where
  key : ∀ entry ∈ table.entries, entry.key ≠ [] ∧ ∀ b ∈ entry.key, ¬Ascii.contains b
  replacement : ∀ entry ∈ table.entries,
    entry.replacement ≠ [] ∧ ∀ b ∈ entry.replacement, Ascii.contains b

def Spares (table : EscapeTable) (text : Text) : Prop :=
  ∀ entry ∈ table.entries, ¬entry.key <:+: text

variable {table : EscapeTable} {text : Text}

theorem Spares.tail {b : UInt8} (h : table.Spares (b :: text)) : table.Spares text :=
  fun entry hentry hkey => h entry hentry (List.infix_cons hkey)

theorem Spares.match?_eq_none (h : table.Spares text) : table.match? text = none :=
  match?_eq_none_iff.mpr (.inr fun entry hentry hkey => h entry hentry hkey.isInfix)

end EscapeTable

open EscapePass (State)

variable {table : EscapeTable} {text : Text}

/-! ## Texts without keys -/

theorem EscapePass.run_of_spares (h : table.Spares text) (keepEscaped : Bool)
    (next : Option UInt8) {state : State} (hstate : state.inserted = false) :
    EscapePass.run table keepEscaped next state text = text := by
  have hgap : ∀ {state : State} next, state.inserted = false → state.gap next = [] := by
    intro state next hstate
    rw [State.gap, hstate, Bool.false_and, if_neg Bool.false_ne_true]
  induction text generalizing state with
  | nil => rw [EscapePass.run, hgap next hstate]
  | cons b rest ih =>
      rw [EscapePass.run, h.match?_eq_none, hgap _ hstate]
      exact congrArg (b :: ·) (ih h.tail rfl)

theorem normalizeTypography_eq_run (table : EscapeTable) (text : Text) :
    normalizeTypography table text = EscapePass.run table false none (.start []) text := by
  rw [normalizeTypography, EscapePass.range, List.drop_length, List.take_length, List.drop_zero]
  rfl

theorem normalizeTypography_of_spares (h : table.Spares text) :
    normalizeTypography table text = text := by
  rw [normalizeTypography_eq_run]
  exact EscapePass.run_of_spares h false _ rfl

/-! ## No key is left -/

theorem ascii_of_mem_gap {state : State} {next : Option UInt8} {b : UInt8}
    (h : b ∈ state.gap next) : Ascii.contains b := by
  have hseparator : ∀ b ∈ EscapePass.separator, Ascii.contains b :=
    List.all_eq_true.mp (by decide)
  rw [State.gap] at h
  split at h
  · exact hseparator b h
  · cases h

theorem ascii_of_mem_written (htable : table.IsTypographic) {state : State}
    {entry : EscapeRule} (hentry : entry ∈ table.entries) {b : UInt8}
    (h : b ∈ state.written entry.replacement) : Ascii.contains b := by
  have hseparator : ∀ b ∈ EscapePass.separator, Ascii.contains b :=
    List.all_eq_true.mp (by decide)
  rw [State.written] at h
  rcases List.mem_append.mp h with h | h
  · split at h
    · exact hseparator b h
    · cases h
  · exact (htable.replacement entry hentry).2 b h

theorem prefix_of_prefix_append {bytes before rest : Text}
    (hbytes : ∀ b ∈ bytes, ¬Ascii.contains b) (hbefore : ∀ b ∈ before, Ascii.contains b)
    (h : bytes <+: before ++ rest) : bytes = [] ∨ before = [] := by
  cases bytes with
  | nil => exact .inl rfl
  | cons b others =>
      cases before with
      | nil => exact .inr rfl
      | cons first before =>
          obtain rfl := (List.cons_prefix_cons.mp h).1
          exact absurd (hbefore b List.mem_cons_self) (hbytes b List.mem_cons_self)

theorem prefix_of_prefix_run (htable : table.IsTypographic) {keepEscaped : Bool}
    {next : Option UInt8} {state : State} {bytes : Text} (hbytes : ∀ b ∈ bytes, ¬Ascii.contains b)
    (h : bytes <+: EscapePass.run table keepEscaped next state text) : bytes <+: text := by
  have hcopy : ∀ {state : State} {b : UInt8} {rest out : Text} {bytes : Text},
      (∀ b ∈ bytes, ¬Ascii.contains b) →
        (∀ tail, (∀ b ∈ tail, ¬Ascii.contains b) → tail <+: out → tail <+: rest) →
        bytes <+: state.gap (some b) ++ b :: out → bytes <+: b :: rest := by
    intro state b rest out bytes hbytes ih h
    rcases prefix_of_prefix_append hbytes (fun _ => ascii_of_mem_gap) h with rfl | hgap
    · exact List.nil_prefix
    · rw [hgap, List.nil_append] at h
      rcases List.prefix_cons_iff.mp h with rfl | ⟨tail, rfl, htail⟩
      · exact List.nil_prefix
      · exact List.cons_prefix_cons.mpr
          ⟨rfl, ih tail (fun b hb => hbytes b (List.mem_cons_of_mem _ hb)) htail⟩
  fun_induction EscapePass.run table keepEscaped next state text generalizing bytes with
  | case1 state =>
      rw [← List.append_nil (state.gap next)] at h
      rcases prefix_of_prefix_append hbytes (fun _ => ascii_of_mem_gap) h with rfl | hgap
      · exact List.nil_prefix
      · rwa [hgap] at h
  | case2 state b rest entry hmatch hescaped ih => exact hcopy hbytes (fun _ => ih) h
  | case3 state b rest entry hmatch hescaped ih =>
      obtain ⟨hentry, -⟩ := EscapeTable.match?_eq_some hmatch
      rcases prefix_of_prefix_append hbytes (fun _ => ascii_of_mem_written htable hentry) h with
        rfl | hwritten
      · exact List.nil_prefix
      · rw [State.written, List.append_eq_nil_iff] at hwritten
        exact absurd hwritten.2 (htable.replacement entry hentry).1
  | case4 state b rest hmatch ih => exact hcopy hbytes (fun _ => ih) h

theorem spares_run (htable : table.IsTypographic) (next : Option UInt8) (state : State)
    (text : Text) : table.Spares (EscapePass.run table false next state text) := by
  intro entry hentry h
  obtain ⟨hne, hkey⟩ := htable.key entry hentry
  obtain ⟨first, tail, hcons⟩ := List.exists_cons_of_ne_nil hne
  rw [hcons] at hkey h
  have hfirst : ∀ {before : Text}, (∀ b ∈ before, Ascii.contains b) → first ∉ before :=
    fun hbefore hmem => hkey first List.mem_cons_self (hbefore first hmem)
  fun_induction EscapePass.run table false next state text with
  | case1 state =>
      exact hfirst (fun _ => ascii_of_mem_gap) (h.subset List.mem_cons_self)
  | case2 state b rest found hmatch hescaped ih => cases hescaped
  | case3 state b rest found hmatch hescaped ih =>
      obtain ⟨hfound, -⟩ := EscapeTable.match?_eq_some hmatch
      exact ih (Text.infix_of_infix_append
        (hfirst fun _ => ascii_of_mem_written htable hfound) h)
  | case4 state b rest hmatch ih =>
      rcases List.infix_cons_iff.mp
        (Text.infix_of_infix_append (hfirst fun _ => ascii_of_mem_gap) h) with hstarts | hwithin
      · obtain ⟨rfl, htail⟩ := List.cons_prefix_cons.mp hstarts
        have hhere := prefix_of_prefix_run htable
          (fun b hb => hkey b (List.mem_cons_of_mem _ hb)) htail
        have hnone := EscapeTable.match?_eq_none_iff.mp hmatch
        rcases hnone with hnil | hnone
        · cases hnil
        · exact hnone entry hentry (hcons ▸ List.cons_prefix_cons.mpr ⟨rfl, hhere⟩)
      · exact ih hwithin

theorem spares_normalizeTypography (htable : table.IsTypographic) (text : Text) :
    table.Spares (normalizeTypography table text) :=
  spares_run htable _ _ _

/-! ## None comes back -/

theorem Rewrites.spares (htable : table.IsTypographic) {context : LeftContext}
    {source target : Text} (h : Rewrites context source target) (hsource : table.Spares source) :
    table.Spares target := by
  intro entry hentry hwithin
  obtain ⟨hne, hkey⟩ := htable.key entry hentry
  refine hsource entry hentry ?_
  obtain ⟨first, tail, hcons⟩ := List.exists_cons_of_ne_nil hne
  rw [hcons] at hkey hwithin ⊢
  clear hsource
  have hfirst : ∀ {before : Text}, (∀ b ∈ before, Ascii.contains b) → first ∉ before :=
    fun hbefore hmem => hkey first List.mem_cons_self (hbefore first hmem)
  have hcopyable : ∀ b : UInt8, ¬Ascii.contains b → isCopyable b = true := by
    intro b hb
    have hne : ∀ other : UInt8, Ascii.contains other → b ≠ other := by
      rintro other hother rfl
      exact hb hother
    simp [isCopyable, hne '\\' (by decide), hne '$' (by decide), hne ' ' (by decide)]
  induction h with
  | nil => exact hwithin
  | @copy b context source target hrest ih =>
      rcases List.infix_cons_iff.mp hwithin with hstarts | hwithin
      · obtain ⟨rfl, htail⟩ := List.cons_prefix_cons.mp hstarts
        have hdollar : (context.push first).dollar = false :=
          push_dollar_of_isCopyable (hcopyable first (hkey first List.mem_cons_self))
        exact (List.cons_prefix_cons.mpr ⟨rfl, hrest.prefix_target hdollar
          (fun b hb => hcopyable b (hkey b (List.mem_cons_of_mem _ hb))) htail⟩).isInfix
      · exact List.infix_cons (ih hwithin)
  | replace _ _ _ hinert _ ih =>
      have hinside := Text.infix_of_infix_append (hfirst (List.all_eq_true.mp hinert.ascii)) hwithin
      exact (ih hinside).trans (List.suffix_append _ _).isInfix
  | guard _ _ ih =>
      exact ih (Text.infix_of_infix_append (hfirst (by decide +kernel)) hwithin)

end LatexIntegrity
