import LatexIntegrity.Proofs.Sanitize.Escaper

/-!
# Inserted mathematics keeps apart from other dollar signs

The output of a pass consists of the bytes that it copies, of the replacements of the keys
that it finds, and of separators.  A replacement that begins or ends in a dollar sign has no
dollar sign on that side, in the text around the range as well as inside of it.
-/

namespace LatexIntegrity

namespace EscapePass

/-! ## The pieces of an output -/

inductive Piece where
  | copied (b : UInt8)
  | replaced (rule : EscapeRule)
  | separator
  deriving DecidableEq, Repr

namespace Piece

def source : Piece → Text
  | copied b => [b]
  | replaced rule => rule.key
  | separator => []

def bytes : Piece → Text
  | copied b => [b]
  | replaced rule => rule.replacement
  | separator => EscapePass.separator

/-- A key is replaced where the table finds it, unless it is escaped and such keys are kept. -/
def IsChosen (table : EscapeTable) (keepEscaped : Bool) (before after : Text) : Piece → Prop
  | copied b => table.match? (b :: after) = none ∨
      (keepEscaped && (LeftContext.after before).escaped) = true
  | replaced rule => table.match? (rule.key ++ after) = some rule ∧
      (keepEscaped && (LeftContext.after before).escaped) = false
  | separator => True

def StandsApart (before after : Text) : Piece → Prop
  | copied _ => True
  | replaced rule =>
      (beginsWithDollar rule.replacement = true → before.getLast? ≠ some ('$' : UInt8)) ∧
        (endsInDollar rule.replacement = true → after.head? ≠ some ('$' : UInt8))
  | separator => before.getLast? = some ('$' : UInt8) ∧ after.head? = some ('$' : UInt8)

end Piece

/--
Pieces written between `written` and `after`, for a part of a text that stands behind
`before`.
-/
def Describes (table : EscapeTable) (keepEscaped : Bool) (before written after : Text)
    (pieces : List Piece) : Prop :=
  ∀ first piece rest, pieces = first ++ piece :: rest →
    piece.IsChosen table keepEscaped (before ++ first.flatMap Piece.source)
        (rest.flatMap Piece.source) ∧
      piece.StandsApart (written ++ first.flatMap Piece.bytes)
        (rest.flatMap Piece.bytes ++ after)

def IsAssembled (table : EscapeTable) (keepEscaped : Bool) (before written after : Text)
    (source output : Text) : Prop :=
  ∃ pieces : List Piece, source = pieces.flatMap Piece.source ∧
    output = pieces.flatMap Piece.bytes ∧
      Describes table keepEscaped before written after pieces

/-- The output for a range keeps dollar signs apart, also from those around the range. -/
def WritesApart (table : EscapeTable) (keepEscaped : Bool) (text : Text) (start stop : Nat)
    (output : Text) : Prop :=
  IsAssembled table keepEscaped (text.take start) (text.take start) (text.drop stop)
    ((text.take stop).drop start) output

variable {table : EscapeTable} {keepEscaped : Bool} {before written after : Text}
  {piece : Piece} {pieces : List Piece}

theorem describes_nil : Describes table keepEscaped before written after [] := by
  intro first piece rest h
  simp at h

theorem Describes.cons
    (hchosen : piece.IsChosen table keepEscaped before (pieces.flatMap Piece.source))
    (hapart : piece.StandsApart written (pieces.flatMap Piece.bytes ++ after))
    (h : Describes table keepEscaped (before ++ piece.source) (written ++ piece.bytes) after
      pieces) :
    Describes table keepEscaped before written after (piece :: pieces) := by
  intro first other rest hpieces
  cases first with
  | nil =>
      obtain ⟨rfl, rfl⟩ := List.cons.inj hpieces
      simpa using And.intro hchosen hapart
  | cons head first =>
      obtain ⟨rfl, rfl⟩ := List.cons.inj hpieces
      simpa using h first other rest rfl

def guarded (needed : Bool) (pieces : List Piece) : List Piece :=
  if needed then .separator :: pieces else pieces

@[simp] theorem source_guarded (needed : Bool) (pieces : List Piece) :
    (guarded needed pieces).flatMap Piece.source = pieces.flatMap Piece.source := by
  cases needed <;> rfl

@[simp] theorem bytes_guarded (needed : Bool) (pieces : List Piece) :
    (guarded needed pieces).flatMap Piece.bytes =
      (if needed then separator else []) ++ pieces.flatMap Piece.bytes := by
  cases needed <;> rfl

theorem Describes.guard {needed : Bool}
    (hneeded : needed = true → written.getLast? = some ('$' : UInt8) ∧
      (pieces.flatMap Piece.bytes ++ after).head? = some ('$' : UInt8))
    (h : Describes table keepEscaped before (written ++ if needed then separator else []) after
      pieces) :
    Describes table keepEscaped before written after (guarded needed pieces) := by
  cases needed with
  | false => simpa [guarded] using h
  | true =>
      refine Describes.cons trivial (hneeded rfl) ?_
      simpa [Piece.source, Piece.bytes] using h

/-! ## The state of a pass -/

structure State.Stands (state : State) (before written : Text) : Prop where
  context : state.context = .after before
  last : state.last = written.getLast?
  inserted : state.inserted = true → written.getLast? = some ('$' : UInt8)

variable {state : State} {text : Text}

theorem State.stands_start (before : Text) : (State.start before).Stands before before :=
  ⟨rfl, rfl, nofun⟩

theorem State.Stands.copy (h : state.Stands before written) (b : UInt8) (gap : Text) :
    (state.copy b).Stands (before ++ [b]) (written ++ gap ++ [b]) where
  context := by rw [State.copy, h.context, LeftContext.after_concat]
  last := by simp [State.copy]
  inserted := nofun

theorem getLast?_append_written (state : State) (written replacement : Text) :
    (written ++ state.written replacement).getLast? =
      if replacement.isEmpty then written.getLast? else replacement.getLast? := by
  cases replacement with
  | nil => simp [State.written, beginsWithDollar]
  | cons first rest =>
      rw [State.written, ← List.append_assoc, List.getLast?_append_of_ne_nil _ (by simp)]
      rfl

theorem State.Stands.replace (h : state.Stands before written) (rule : EscapeRule) :
    (state.replace rule).Stands (before ++ rule.key)
      (written ++ state.written rule.replacement) where
  context := by rw [State.replace, h.context, LeftContext.after_append]
  last := by rw [getLast?_append_written, ← h.last, State.replace]
  inserted := by
    rw [getLast?_append_written]
    cases hempty : rule.replacement.isEmpty with
    | true => simpa [State.replace, hempty] using h.inserted
    | false => simp [State.replace, hempty, endsInDollar]

theorem head?_separator_append (output : Text) :
    (separator ++ output).head? ≠ some ('$' : UInt8) := by
  have hne : ('\x7b' : UInt8) ≠ ('$' : UInt8) := by decide
  exact fun h => hne (Option.some.inj h)

theorem getLast?_append_separator (output : Text) :
    (output ++ separator).getLast? ≠ some ('$' : UInt8) := by
  have hne : ('\x7d' : UInt8) ≠ ('$' : UInt8) := by decide
  rw [List.getLast?_append_of_ne_nil _ (by decide)]
  exact fun h => hne (Option.some.inj h)

theorem State.head?_gap_append (hinserted : state.inserted = true) {next : Option UInt8}
    {output : Text} (houtput : output.head? = next) :
    (state.gap next ++ output).head? ≠ some ('$' : UInt8) := by
  rw [State.gap, hinserted, Bool.true_and]
  split
  · exact head?_separator_append output
  · next hne => simpa [houtput] using hne

theorem State.head?_written_append (hlast : state.last = some ('$' : UInt8)) {replacement : Text}
    (hreplacement : replacement ≠ []) (output : Text) :
    (state.written replacement ++ output).head? ≠ some ('$' : UInt8) := by
  obtain ⟨first, rest, rfl⟩ := List.exists_cons_of_ne_nil hreplacement
  rw [State.written, hlast, beq_self_eq_true, Bool.and_true, List.append_assoc]
  split
  · exact head?_separator_append _
  · next hne => simpa [beginsWithDollar] using hne

theorem head?_run_append (table : EscapeTable) (keepEscaped : Bool) (after : Text)
    (state : State) (text : Text) (hinserted : state.inserted = true)
    (hlast : state.last = some ('$' : UInt8)) :
    (run table keepEscaped after.head? state text ++ after).head? ≠ some ('$' : UInt8) := by
  fun_induction run table keepEscaped after.head? state text with
  | case1 state => exact State.head?_gap_append hinserted rfl
  | case2 state b rest entry hmatch hescaped ih =>
      rw [List.append_assoc]
      exact State.head?_gap_append hinserted rfl
  | case3 state b rest entry hmatch hescaped ih =>
      cases hreplacement : entry.replacement with
      | nil =>
          have hrest := ih (by simpa [State.replace, hreplacement])
            (by simpa [State.replace, hreplacement])
          simpa [State.written, beginsWithDollar] using hrest
      | cons first others =>
          rw [List.append_assoc]
          exact State.head?_written_append hlast (by simp) _
  | case4 state b rest hmatch ih =>
      rw [List.append_assoc]
      exact State.head?_gap_append hinserted rfl

/-! ## The pieces of a run -/

variable {source output : Text}

theorem State.Stands.describes_gap (hstate : state.Stands before written) {next : Option UInt8}
    (hnext : (pieces.flatMap Piece.bytes ++ after).head? = next)
    (h : Describes table keepEscaped before (written ++ state.gap next) after pieces) :
    Describes table keepEscaped before written after
      (guarded (state.inserted && next == some ('$' : UInt8)) pieces) := by
  refine Describes.guard (fun hneeded => ?_) h
  rw [Bool.and_eq_true, beq_iff_eq] at hneeded
  exact ⟨hstate.inserted hneeded.1, hnext.trans hneeded.2⟩

theorem IsAssembled.nil (hstate : state.Stands before written) :
    IsAssembled table keepEscaped before written after [] (state.gap after.head?) :=
  ⟨_, by simp, by simp [State.gap], hstate.describes_gap rfl describes_nil⟩

theorem IsAssembled.copy (hstate : state.Stands before written) {b : UInt8}
    (hchosen : (Piece.copied b).IsChosen table keepEscaped before source)
    (h : IsAssembled table keepEscaped (before ++ [b]) (written ++ state.gap (some b) ++ [b])
      after source output) :
    IsAssembled table keepEscaped before written after (b :: source)
      (state.gap (some b) ++ b :: output) := by
  obtain ⟨pieces, rfl, rfl, hpieces⟩ := h
  have hcopied := Describes.cons hchosen trivial hpieces
  exact ⟨_, by simp [Piece.source], by simp [State.gap, Piece.bytes],
    hstate.describes_gap rfl hcopied⟩

theorem IsAssembled.replace (hstate : state.Stands before written) {rule : EscapeRule}
    (hchosen : (Piece.replaced rule).IsChosen table keepEscaped before source)
    (hends : endsInDollar rule.replacement = true →
      (output ++ after).head? ≠ some ('$' : UInt8))
    (h : IsAssembled table keepEscaped (before ++ rule.key)
      (written ++ state.written rule.replacement) after source output) :
    IsAssembled table keepEscaped before written after (rule.key ++ source)
      (state.written rule.replacement ++ output) := by
  obtain ⟨pieces, rfl, rfl, hpieces⟩ := h
  rw [State.written, ← List.append_assoc] at hpieces
  refine ⟨guarded (beginsWithDollar rule.replacement && state.last == some ('$' : UInt8))
    (.replaced rule :: pieces), by simp [Piece.source], by simp [State.written, Piece.bytes],
    Describes.guard ?_ (Describes.cons hchosen ⟨?_, hends⟩ hpieces)⟩
  · intro hneeded
    rw [Bool.and_eq_true, beq_iff_eq, hstate.last] at hneeded
    obtain ⟨hbegins, hlast⟩ := hneeded
    refine ⟨hlast, ?_⟩
    rw [beginsWithDollar, beq_iff_eq] at hbegins
    simp [Piece.bytes, hbegins]
  · intro hbegins
    rw [hbegins, Bool.true_and, hstate.last]
    split
    · exact getLast?_append_separator written
    · next hne => simpa using hne

theorem isAssembled_run (htable : ∀ entry ∈ table.entries, entry.key ≠ []) (keepEscaped : Bool)
    (after : Text) (hstate : state.Stands before written) (text : Text) :
    IsAssembled table keepEscaped before written after text
      (run table keepEscaped after.head? state text) := by
  fun_induction run table keepEscaped after.head? state text generalizing before written with
  | case1 state => exact .nil hstate
  | case2 state b rest entry hmatch hescaped ih =>
      exact .copy hstate (.inr (hstate.context ▸ hescaped)) (ih (hstate.copy b _))
  | case3 state b rest entry hmatch hescaped ih =>
      rw [hstate.context, Bool.not_eq_true] at hescaped
      obtain ⟨hentry, behind, hbehind⟩ := EscapeTable.match?_eq_some hmatch
      rw [EscapeRule.drop_key (htable entry hentry) hbehind] at ih ⊢
      rw [← hbehind] at hmatch ⊢
      refine .replace hstate ⟨hmatch, hescaped⟩ (fun hends => ?_) (ih (hstate.replace entry))
      -- What ends in a dollar sign is not empty, so the state behind it tells of that sign.
      have hne : entry.replacement ≠ [] := by
        intro hnil
        simp [hnil, endsInDollar] at hends
      refine head?_run_append table keepEscaped after _ behind ?_ ?_
      · simp [State.replace, hne, hends]
      · rw [endsInDollar, beq_iff_eq] at hends
        simp [State.replace, hne, hends]
  | case4 state b rest hmatch ih => exact .copy hstate (.inl hmatch) (ih (hstate.copy b _))

theorem writesApart_range (htable : ∀ entry ∈ table.entries, entry.key ≠ [])
    (keepEscaped : Bool) (text : Text) (start stop : Nat) :
    WritesApart table keepEscaped text start stop
      (range table keepEscaped text start stop) :=
  isAssembled_run htable keepEscaped _ (State.stands_start _) _

end EscapePass

/--
Whatever the tables are, no dollar sign of an inserted replacement is next to another one:
neither next to one of the output nor next to one that stands around the range.
-/
theorem substitution_keepsDollarsApart (typography prose cells : List EscapeRule)
    (text : Text) :
    let tables : EscapeTables := ⟨.ofEntries typography, .ofEntries prose, .ofEntries cells⟩
    (∀ keepEscaped start stop, EscapePass.WritesApart tables.typography keepEscaped text start
      stop (EscapePass.range tables.typography keepEscaped text start stop)) ∧
    EscapePass.WritesApart tables.typography false text 0 text.length
      (normalizeTypography tables.typography text) ∧
    ∀ context,
      EscapePass.WritesApart (tables.forContext context) true text 0 text.length
        (escapeAll tables context text) ∧
      ∀ start stop name,
        EscapePass.WritesApart (tables.forContext context) true text start stop
          (escapeSpan tables context text ⟨start, stop, .plain, name⟩) := by
  have hkeys := @EscapeTable.key_ne_nil_ofEntries
  refine ⟨fun keepEscaped start stop => ?_, ?_, fun context => ?_⟩
  · exact EscapePass.writesApart_range (fun entry => hkeys) keepEscaped text start stop
  · exact EscapePass.writesApart_range (fun entry => hkeys) false text 0 text.length
  · cases context <;>
      exact ⟨EscapePass.writesApart_range (fun entry => hkeys) true text 0 text.length,
        fun start stop _ =>
          EscapePass.writesApart_range (fun entry => hkeys) true text start stop⟩

/-- A key between two dollar signs that stay is replaced with a separator on both sides. -/
example : EscapePass.range (.ofPairs [("<", "$<$")]) true "$<$" 1 2 = "\x7b\x7d$<$\x7b\x7d" := by
  decide +kernel

end LatexIntegrity
