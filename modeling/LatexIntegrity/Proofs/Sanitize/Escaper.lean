import Mathlib.Data.List.Find
import LatexIntegrity.Sanitize.Document
import LatexIntegrity.Proofs.Region.Places
import LatexIntegrity.Proofs.Sanitize.Tables

/-!
# Sanitization as one pass

Sanitization cuts a text into spans and escapes the plain ones one by one.  The
same output comes from one pass over the text that carries the state of the escape
table from one span into the next.
-/

namespace LatexIntegrity

theorem EscapeRule.drop_key {entry : EscapeRule} {b : UInt8} {rest behind : Text}
    (hkey : entry.key ≠ []) (h : entry.key ++ behind = b :: rest) :
    rest.drop (entry.key.length - 1) = behind := by
  obtain ⟨first, others, hcons⟩ := List.exists_cons_of_ne_nil hkey
  rw [hcons] at h ⊢
  obtain ⟨rfl, rfl⟩ := List.cons.inj h
  simp

/--
The bytes behind the first one of a key begin no construct, so that no key reaches
from a plain span into the next one.
-/
def EscapeTable.StaysInside (table : EscapeTable) : Prop :=
  ∀ entry ∈ table.entries, entry.key ≠ [] ∧
    ∀ b ∈ entry.key.tail, b ≠ '%' ∧ b ≠ '$' ∧ b ≠ '\\'

instance (table : EscapeTable) : Decidable table.StaysInside :=
  decidable_of_iff (∀ entry ∈ table.entries, entry.key ≠ [] ∧
      (entry.key.tail.all fun b => b != '%' && b != '$' && b != '\\') = true)
    (by simp [EscapeTable.StaysInside, and_assoc])

theorem EscapeTable.match?_append {table : EscapeTable} (htable : table.StaysInside)
    {run after : Text} (hrun : run ≠ [])
    (hafter : after ≠ [] → ∃ context, (construct? context after).isSome = true) :
    table.match? (run ++ after) = table.match? run := by
  have hfind : table.entries.find? (·.key.isPrefixOf (run ++ after)) =
      table.entries.find? (·.key.isPrefixOf run) := by
    refine List.find?_congr fun entry hentry => ?_
    rw [Bool.eq_iff_iff, List.isPrefixOf_iff_prefix, List.isPrefixOf_iff_prefix]
    refine ⟨fun hkey => ?_, fun hkey => hkey.trans (List.prefix_append _ _)⟩
    rcases List.prefix_or_prefix_of_prefix hkey (List.prefix_append run after) with
      hinside | ⟨beyond, hbeyond⟩
    · exact hinside
    · -- The key would reach to the head of a construct, which none of its bytes can be.
      rw [← hbeyond] at hkey ⊢
      cases beyond with
      | nil => exact (List.append_nil run).symm ▸ List.prefix_rfl
      | cons b others =>
          obtain ⟨rest, hrest⟩ := List.prefix_append_right_inj run |>.mp hkey
          obtain ⟨first, tail, rfl⟩ := List.exists_cons_of_ne_nil hrun
          obtain ⟨hpercent, hdollar, hbackslash⟩ := (htable entry hentry).2 b (by
            rw [← hbeyond]
            simp)
          obtain ⟨context, hsome⟩ := hafter (by rw [← hrest]; simp)
          rw [← hrest, List.cons_append,
            construct?_eq_none_of_head hpercent hdollar hbackslash] at hsome
          cases hsome
  rw [match?, match?, hfind]
  obtain ⟨b, rest, rfl⟩ := List.exists_cons_of_ne_nil hrun
  rfl

namespace EscapePass

/-- The state behind bytes that are neither escaped nor searched for keys. -/
def State.pass (state : State) (bytes : Text) : State :=
  ⟨state.context.pushAll bytes, bytes.getLast?, false⟩

theorem State.start_append (before : Text) {bytes : Text} (hbytes : bytes ≠ [])
    (state : State) (hstate : state.context = .after before) :
    State.start (before ++ bytes) = state.pass bytes := by
  rw [State.start, State.pass, hstate, LeftContext.after_append,
    List.getLast?_append_of_ne_nil _ hbytes]

theorem State.gap_of_copied {state : State} (h : state.inserted = false) (next : Option UInt8) :
    state.gap next = [] := by
  rw [State.gap, h, Bool.false_and, if_neg Bool.false_ne_true]

end EscapePass

open EscapePass (State)

/-- A table for plain bytes together with what becomes of shielded regions. -/
structure Escaper where
  table : EscapeTable
  shielded : Region → Text

namespace Escaper

def outputFrom (escaper : Escaper) (state : State) (text : Text) : Text :=
  match text with
  | [] => []
  | b :: rest =>
      match construct? state.context (b :: rest) with
      | some (kind, construct) =>
          let others := rest.take (construct.length - 1)
          state.gap (some b) ++
            (escaper.shielded ⟨kind, construct.name, b :: others⟩ ++
              outputFrom escaper (state.pass (b :: others))
                (rest.drop (construct.length - 1)))
      | none =>
          match escaper.table.match? (b :: rest) with
          | some entry =>
              if state.context.escaped then
                state.gap (some b) ++ b :: outputFrom escaper (state.copy b) rest
              else
                state.written entry.replacement ++
                  outputFrom escaper (state.replace entry)
                    (rest.drop (entry.key.length - 1))
          | none => state.gap (some b) ++ b :: outputFrom escaper (state.copy b) rest
  termination_by text.length
  decreasing_by all_goals simp only [List.length_drop, List.length_cons]; omega

def output (escaper : Escaper) (text : Text) : Text :=
  escaper.outputFrom (.start []) text

/-! ## Steps of the pass -/

variable {escaper : Escaper} {state : State} {text : Text} {b : UInt8}

theorem outputFrom_nil : escaper.outputFrom state [] = [] := by rw [outputFrom]

theorem outputFrom_construct {body rest : Text} (hbody : body ≠ []) {kind : RegionKind}
    {name : Text}
    (h : construct? state.context (body ++ rest) = some (kind, ⟨body.length, name⟩)) :
    escaper.outputFrom state (body ++ rest) =
      state.gap body.head? ++
        (escaper.shielded ⟨kind, name, body⟩ ++ escaper.outputFrom (state.pass body) rest) := by
  obtain ⟨b, others, rfl⟩ := List.exists_cons_of_ne_nil hbody
  rw [List.cons_append] at h ⊢
  rw [outputFrom, h]
  simp

theorem outputFrom_copy (hnone : construct? state.context (b :: text) = none)
    (hkey : state.context.escaped = true ∨ escaper.table.match? (b :: text) = none) :
    escaper.outputFrom state (b :: text) =
      state.gap (some b) ++ b :: escaper.outputFrom (state.copy b) text := by
  rw [outputFrom, hnone]
  rcases hkey with hescaped | hmatch
  · cases hmatch : escaper.table.match? (b :: text) with
    | none => rfl
    | some entry => simp only [hescaped, if_true]
  · rw [hmatch]

theorem outputFrom_replace {entry : EscapeRule} {rest : Text}
    (hnone : construct? state.context (entry.key ++ rest) = none)
    (hmatch : escaper.table.match? (entry.key ++ rest) = some entry)
    (hescaped : state.context.escaped = false) (hkey : entry.key ≠ []) :
    escaper.outputFrom state (entry.key ++ rest) =
      state.written entry.replacement ++ escaper.outputFrom (state.replace entry) rest := by
  have hne : entry.key ++ rest ≠ [] := List.append_ne_nil_of_left_ne_nil hkey rest
  obtain ⟨b, others, hcons⟩ := List.exists_cons_of_ne_nil hne
  have hdrop := EscapeRule.drop_key hkey hcons
  rw [hcons] at hnone hmatch ⊢
  rw [outputFrom, hnone]
  simp only [hmatch, hescaped, Bool.false_eq_true, if_false, hdrop]

inductive Step (table : EscapeTable) (context : LeftContext) : Text → Prop
  | nil : Step table context []
  | construct {kind : RegionKind} {name body rest : Text} :
      body ≠ [] → construct? context (body ++ rest) = some (kind, ⟨body.length, name⟩) →
        Step table context (body ++ rest)
  | replace {entry : EscapeRule} {rest : Text} :
      entry ∈ table.entries → entry.key ≠ [] →
        construct? context (entry.key ++ rest) = none → context.escaped = false →
          table.match? (entry.key ++ rest) = some entry →
            Step table context (entry.key ++ rest)
  | copy {b : UInt8} {rest : Text} :
      construct? context (b :: rest) = none →
        (context.escaped = true ∨ table.match? (b :: rest) = none) →
          Step table context (b :: rest)

theorem step {table : EscapeTable} (htable : table.StaysInside) (context : LeftContext)
    (text : Text) : Step table context text := by
  cases text with
  | nil => exact .nil
  | cons b rest =>
      cases hfound : construct? context (b :: rest) with
      | some found =>
          obtain ⟨kind, length, name⟩ := found
          obtain ⟨-, hpos, hfit⟩ := construct?_spec hfound
          have hlength : ((b :: rest).take length).length = length := List.length_take_of_le hfit
          have hbody : (b :: rest).take length ≠ [] := List.ne_nil_of_length_pos (by
            rw [hlength]
            exact hpos)
          rw [← List.take_append_drop length (b :: rest)] at hfound ⊢
          exact .construct hbody (by rwa [hlength])
      | none =>
          cases hmatch : table.match? (b :: rest) with
          | none => exact .copy hfound (.inr hmatch)
          | some entry =>
              cases hescaped : context.escaped with
              | true => exact .copy hfound (.inl hescaped)
              | false =>
                  obtain ⟨hentry, behind, hbehind⟩ := EscapeTable.match?_eq_some hmatch
                  rw [← hbehind] at hfound hmatch ⊢
                  exact .replace hentry (htable entry hentry).1 hfound hescaped hmatch

/--
Induction along the steps of a pass.  What holds behind a byte that is copied may be used at
any end of the text behind it.
-/
theorem pass_induction {table : EscapeTable} (htable : table.StaysInside)
    {motive : State → Text → Prop} (nil : ∀ state, motive state [])
    (construct : ∀ (state : State) {kind : RegionKind} {name body rest : Text}, body ≠ [] →
      construct? state.context (body ++ rest) = some (kind, ⟨body.length, name⟩) →
        motive (state.pass body) rest → motive state (body ++ rest))
    (replace : ∀ (state : State) {entry : EscapeRule} {rest : Text}, entry ∈ table.entries →
      entry.key ≠ [] → construct? state.context (entry.key ++ rest) = none →
        state.context.escaped = false → table.match? (entry.key ++ rest) = some entry →
          motive (state.replace entry) rest → motive state (entry.key ++ rest))
    (copy : ∀ (state : State) {b : UInt8} {rest : Text},
      construct? state.context (b :: rest) = none →
        (state.context.escaped = true ∨ table.match? (b :: rest) = none) →
          (∀ state' behind, behind <:+ rest → motive state' behind) → motive state (b :: rest))
    (state : State) (text : Text) : motive state text := by
  induction hn : text.length using Nat.strongRecOn generalizing state text with
  | ind n ih =>
      subst hn
      cases step htable state.context text with
      | nil => exact nil state
      | construct hbody hfound =>
          have hpos := List.length_pos_iff.mpr hbody
          exact construct state hbody hfound
            (ih _ (by rw [List.length_append]; omega) _ _ rfl)
      | replace hentry hkey hnone hescaped hmatch =>
          have hpos := List.length_pos_iff.mpr hkey
          exact replace state hentry hkey hnone hescaped hmatch
            (ih _ (by rw [List.length_append]; omega) _ _ rfl)
      | copy hnone hkey =>
          exact copy state hnone hkey fun state' behind hbehind =>
            ih behind.length (Nat.lt_succ_of_le hbehind.length_le) state' behind rfl

/-! ## Plain spans -/

def constructOutput (escaper : Escaper) (context : LeftContext) (text : Text) : Text :=
  match text with
  | [] => []
  | b :: rest =>
      match construct? context (b :: rest) with
      | none => []
      | some (kind, construct) =>
          let body := b :: rest.take (construct.length - 1)
          escaper.shielded ⟨kind, construct.name, body⟩ ++
            escaper.outputFrom ⟨context.pushAll body, body.getLast?, false⟩
              (rest.drop (construct.length - 1))

theorem outputFrom_eq_gap_append (escaper : Escaper) (state : State)
    (h : text ≠ [] → (construct? state.context text).isSome = true) :
    escaper.outputFrom state text =
      state.gap text.head? ++ escaper.constructOutput state.context text := by
  cases text with
  | nil => simp [outputFrom, constructOutput, State.gap]
  | cons b rest =>
      have hsome := h (by simp)
      rw [outputFrom, constructOutput]
      cases hfound : construct? state.context (b :: rest) with
      | none => simp [hfound] at hsome
      | some found => rfl

theorem outputFrom_run_append (htable : escaper.table.StaysInside) (run after : Text)
    (hrun : IsPlainRun state.context run after)
    (hafter : after ≠ [] →
      (construct? (state.context.pushAll run) after).isSome = true) :
    escaper.outputFrom state (run ++ after) =
      EscapePass.run escaper.table true after.head? state run ++
        escaper.constructOutput (state.context.pushAll run) after := by
  -- What follows the run begins a construct, so no key reaches over its end.
  fun_induction EscapePass.run escaper.table true after.head? state run with
  | case1 state => exact outputFrom_eq_gap_append escaper state hafter
  | case2 state b rest entry hmatch hescaped ih =>
      rw [Bool.true_and] at hescaped
      have hnone := hrun.head (List.cons_ne_nil b rest)
      have hbehind := ih hrun.tail hafter
      rw [List.cons_append] at hnone ⊢
      rw [outputFrom_copy hnone (.inl hescaped), hbehind]
      simp [State.copy]
  | case3 state b rest entry hmatch hescaped ih =>
      rw [Bool.true_and, Bool.not_eq_true] at hescaped
      obtain ⟨hentry, behind, hbehind⟩ := EscapeTable.match?_eq_some hmatch
      have hkey := (htable entry hentry).1
      have hnone := hrun.head (List.cons_ne_nil b rest)
      have hmatch' := EscapeTable.match?_append htable (List.cons_ne_nil b rest)
        fun hne => ⟨_, hafter hne⟩
      rw [EscapeRule.drop_key hkey hbehind] at ih ⊢
      rw [← hbehind, List.append_assoc] at hnone hmatch'
      rw [← hbehind] at hrun hafter hmatch
      have hcontext : (state.replace entry).context = state.context.pushAll entry.key := rfl
      have hrest := ih hrun.behind fun hne => by
        have hsome := hafter hne
        rwa [LeftContext.pushAll_append] at hsome
      rw [← hbehind, List.append_assoc,
        outputFrom_replace hnone (hmatch'.trans hmatch) hescaped hkey, hrest,
        List.append_assoc, hcontext, LeftContext.pushAll_append]
  | case4 state b rest hmatch ih =>
      have hnone := hrun.head (List.cons_ne_nil b rest)
      have hcopy := EscapeTable.match?_append htable (List.cons_ne_nil b rest)
        fun hne => ⟨_, hafter hne⟩
      have hbehind := ih hrun.tail hafter
      rw [List.cons_append] at hnone hcopy ⊢
      rw [outputFrom_copy hnone (.inr (hcopy.trans hmatch)), hbehind]
      simp [State.copy]

/-! ## Whole texts -/

def spanOutput (escaper : Escaper) (before after : Text) (region : Region) : Text :=
  if region.kind.isShielded then escaper.shielded region
  else EscapePass.run escaper.table true after.head? (.start before) region.body

/-- Escaping the spans of a text one by one is one pass over the text. -/
theorem flatMap_spans_eq_outputFrom (htable : escaper.table.StaysInside)
    (escape : Span → Text) (whole : Text)
    (hescape : ∀ before after (region : Region), before ++ (region.body ++ after) = whole →
      escape ⟨before.length, before.length + region.body.length, region.kind, region.name⟩ =
        escaper.spanOutput before after region) (before rest : Text) :
    before ++ rest = whole →
      (Region.spans before.length (regionsFrom (.after before) rest)).flatMap escape =
        escaper.outputFrom (.start before) rest := by
  refine @Region.spans_induction (fun before rest spans => before ++ rest = whole →
    spans.flatMap escape = escaper.outputFrom (.start before) rest) ?_ ?_ ?_ before rest
  · intro before _
    rw [outputFrom_nil]
    rfl
  · intro before body rest kind name spans hbody hfound hspans hwhole
    have hkind := (construct?_spec hfound).1
    have hpass := State.start_append before hbody (.start before) rfl
    have hgap : (State.start before).gap body.head? = [] := rfl
    rw [List.flatMap_cons, hescape before rest ⟨kind, name, body⟩ hwhole,
      hspans (by rw [List.append_assoc, hwhole]), hpass,
      @outputFrom_construct escaper (.start before) body rest hbody kind name hfound, hgap,
      List.nil_append, spanOutput, if_pos (by simp [RegionKind.isShielded, hkind])]
  · intro before run rest spans hrun hplain hspans hwhole
    have hcontext : (State.start (before ++ run)).context =
        (LeftContext.after before).pushAll run :=
      LeftContext.after_append before run
    have hbehind : rest ≠ [] →
        (construct? ((LeftContext.after before).pushAll run) rest).isSome = true :=
      isSome_construct?_behind hplain
    have hgap := outputFrom_eq_gap_append escaper (.start (before ++ run)) (hcontext ▸ hbehind)
    rw [hcontext] at hgap
    rw [List.flatMap_cons, hescape before rest ⟨.plain, [], run⟩ hwhole,
      hspans (by rw [List.append_assoc, hwhole]), hgap]
    exact (outputFrom_run_append htable run rest (.of_plainRun hplain) hbehind).symm

theorem flatMap_segment_eq_output (htable : escaper.table.StaysInside) (escape : Span → Text)
    (hescape : ∀ before after (region : Region), before ++ (region.body ++ after) = text →
      escape ⟨before.length, before.length + region.body.length, region.kind, region.name⟩ =
        escaper.spanOutput before after region) :
    (segment text).flatMap escape = escaper.output text :=
  flatMap_spans_eq_outputFrom htable escape text hescape [] text rfl

end Escaper

/-! ## Documents and table cells -/

theorem EscapePass.range_append (table : EscapeTable) (keepEscaped : Bool)
    (before body after : Text) :
    EscapePass.range table keepEscaped (before ++ (body ++ after)) before.length
        (before.length + body.length) =
      EscapePass.run table keepEscaped after.head? (.start before) body := by
  rw [EscapePass.range, List.drop_length_add_append, List.take_length_add_append,
    List.drop_left, List.take_left, List.drop_left, List.take_left]

def Region.isTable (region : Region) : Bool :=
  region.kind == .environment && Environment.isTabular region.name

theorem Region.kind_of_isTable {region : Region} (h : region.isTable = true) :
    region.kind = .environment := by
  rw [isTable, Bool.and_eq_true, beq_iff_eq] at h
  exact h.1

theorem Region.isShielded_of_isTable {region : Region} (h : region.isTable = true) :
    region.kind.isShielded = true := by
  rw [kind_of_isTable h]
  rfl

namespace EscapeTables

def cellEscaper (tables : EscapeTables) : Escaper := ⟨tables.cells, (·.body)⟩

def proseEscaper (tables : EscapeTables) : Escaper :=
  ⟨tables.prose, fun region =>
    if region.isTable then Tabular.sanitize tables region.name region.body else region.body⟩

variable {tables : EscapeTables}

theorem flatMap_cell_eq_output (htable : tables.cells.StaysInside) (text : Text) :
    (segment text).flatMap (escapeSpan tables .cell text) = tables.cellEscaper.output text := by
  refine Escaper.flatMap_segment_eq_output htable _ ?_
  rintro before after region rfl
  rw [escapeSpan, Escaper.spanOutput, Span.read_append, EscapePass.range_append]
  rfl

theorem sanitize_full_eq_output (htable : tables.prose.StaysInside) (text : Text) :
    sanitize tables .full text =
      tables.proseEscaper.output (normalizeTypography tables.typography text) := by
  refine Escaper.flatMap_segment_eq_output htable _ ?_
  intro before after region hwhole
  have hread := Span.read_append before region.body after region.kind region.name
  rw [hwhole] at hread
  have htable : Span.isEnvironment Environment.isTabular ⟨before.length,
      before.length + region.body.length, region.kind, region.name⟩ = region.isTable := rfl
  rw [SanitizeScope.escapeSpan, htable, Escaper.spanOutput]
  simp only [hread]
  split
  · next htable =>
      rw [if_pos (Region.isShielded_of_isTable htable), proseEscaper]
      simp only [htable, if_true]
  · next htable =>
      simp only [escapeSpan, Span.isShielded, hread, proseEscaper, htable]
      simp only [SanitizeScope.prepare] at hwhole ⊢
      rw [← hwhole, EscapePass.range_append]
      rfl

end EscapeTables

end LatexIntegrity
