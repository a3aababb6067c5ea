import LatexIntegrity.Proofs.Rewriting.Constructs
import LatexIntegrity.Proofs.Sanitize.Replacement

/-!
# The output of an escape pass tracks the text

The pass is followed step by step.  What it writes at a plain place depends on the
rest of the text only through the rewriting that this rest undergoes.
-/

namespace LatexIntegrity

open EscapePass (State)

/--
A replacement that could be the name of a definition either is no name, or is a name
with a brace group behind it.
-/
def isNameOrDefinition (replacement : Text) : Bool :=
  let definition : Text := "\\def" ++ replacement
  replacement.head? != some ('\\' : UInt8) ||
    ((replacement.drop 1).head?.any fun b => !Recognizer.isMacroNameByte b) ||
      Recognizer.definition ⟨false, false⟩ definition == some ⟨definition.length, []⟩

structure EscapeTable.IsKnown (table : EscapeTable) : Prop extends table.IsInert where
  known : ∀ entry ∈ table.entries, entry.replacement ≠ [] →
    isKnownReplacement entry.replacement = true
  names : ∀ entry ∈ table.entries, isNameOrDefinition entry.replacement = true

/--
A plain place at which nothing is left open: no stray dollar, no command with open
arguments, and no key that is deleted.  Arguments may stay open behind the last shielded
region.
-/
structure BytePlace.IsCalm (table : EscapeTable) (place : BytePlace) : Prop where
  dollar : place.rest.head? = some ('$' : UInt8) → place.context.escaped = true
  closed : shieldedFrom place.context place.rest ≠ [] →
    Recognizer.hasOpenArguments place.context place.rest = false
  kept : place.isDeleted table = false

theorem EscapeTable.IsInert.match?_eq_none_of_rewrites {table : EscapeTable}
    (htable : table.IsInert) {context : LeftContext} {b : UInt8} {source target : Text}
    (h : Rewrites (context.push b) source target) (hnone : table.match? (b :: source) = none) :
    table.match? (b :: target) = none := by
  cases hmatch : table.match? (b :: target) with
  | none => rfl
  | some entry =>
      obtain ⟨hentry, hstarts⟩ := EscapeTable.match?_eq_some hmatch
      have hordinary := htable.ordinary entry hentry
      obtain ⟨first, tail, hkey⟩ :=
        List.exists_cons_of_ne_nil (htable.staysInside entry hentry).1
      rw [hkey] at hstarts hordinary
      obtain ⟨rfl, hbehind⟩ := List.cons_prefix_cons.mp hstarts
      have hfirst := hordinary first List.mem_cons_self
      have htail := h.prefix_target (by rw [push_of_isOrdinary hfirst])
        (fun b hb => isCopyable_of_isOrdinary (hordinary b (List.mem_cons_of_mem _ hb))) hbehind
      have hnot := List.find?_eq_none.mp hnone entry hentry
      rw [hkey] at hnot
      exact absurd (List.isPrefixOf_iff_prefix.mpr (List.cons_prefix_cons.mpr ⟨rfl, htail⟩)) hnot

namespace Escaper

variable {escaper : Escaper} {state : State} {written context : LeftContext}
variable {text source target : Text}

/-! ## The head of the output -/

theorem gap_of_ne_dollar {next : Option UInt8} (h : next ≠ some ('$' : UInt8)) :
    state.gap next = [] := by
  have hnext : (next == some ('$' : UInt8)) = false := by simpa using h
  rw [State.gap, hnext, Bool.and_false, if_neg Bool.false_ne_true]

theorem head?_dollarGuard_append (rest : Text) :
    (dollarGuard ++ rest).head? ≠ some ('$' : UInt8) := by
  rw [dollarGuard, List.cons_append, List.head?_cons]
  decide

theorem head?_gap_append_ne_dollar {b : UInt8} (h : state.inserted = true ∨ b ≠ '$')
    {rest : Text} (hrest : rest.head? = some b) :
    (state.gap (some b) ++ rest).head? ≠ some ('$' : UInt8) := by
  by_cases hb : b = '$'
  · have hinserted : state.inserted = true := h.resolve_right (not_not.mpr hb)
    rw [State.gap, hinserted, hb, EscapePass.separator_eq_dollarGuard]
    exact head?_dollarGuard_append rest
  · rw [gap_of_ne_dollar (by simpa using hb), List.nil_append, hrest]
    simpa using hb

theorem replacement_ne_nil {entry : EscapeRule} {rest : Text}
    (hentry : entry ∈ escaper.table.entries)
    (hstays : escaper.table.StaysInside)
    (hnone : construct? context (entry.key ++ rest) = none)
    (hescaped : context.escaped = false)
    (hmatch : escaper.table.match? (entry.key ++ rest) = some entry)
    (hkept : ∀ place ∈ plainPlacesFrom context (entry.key ++ rest),
      place.isDeleted escaper.table = false) : entry.replacement ≠ [] := by
  intro hempty
  have hdeleted := hkept _ (mem_plainPlacesFrom_key (hstays entry hentry).1
    (hstays entry hentry).2 hnone).1
  simp [BytePlace.isDeleted, hescaped, hmatch, hempty] at hdeleted

theorem head?_outputFrom_ne_dollar (hstays : escaper.table.StaysInside)
    (hregions : escaper.PreservesRegions) (hlast : state.last = some ('$' : UInt8))
    (htext : state.inserted = true ∨ text.head? ≠ some ('$' : UInt8))
    (hkept : ∀ place ∈ plainPlacesFrom state.context text,
      place.isDeleted escaper.table = false) :
    (escaper.outputFrom state text).head? ≠ some ('$' : UInt8) := by
  cases step hstays state.context text with
  | nil =>
      rw [outputFrom_nil]
      simp
  | @construct kind name body rest hbody hfound =>
      have hregion : escaper.Preserves ⟨kind, name, body⟩ := by simpa using hregions hfound
      obtain ⟨b, others, rfl⟩ := List.exists_cons_of_ne_nil hbody
      have hhead := hregion.head
      rw [outputFrom_construct hbody hfound]
      refine head?_gap_append_ne_dollar (htext.imp_right fun hne => by simpa using hne) ?_
      obtain ⟨shielded, hshielded⟩ := List.head?_eq_some_iff.mp hhead
      rw [hshielded]
      rfl
  | @replace entry rest hentry hkey hnone hescaped hmatch =>
      rw [outputFrom_replace hnone hmatch hescaped hkey, State.Knows.written_eq,
        State.Knows.separated, hlast]
      have hne := replacement_ne_nil hentry hstays hnone hescaped hmatch hkept
      obtain ⟨first, others, hcons⟩ := List.exists_cons_of_ne_nil hne
      cases hbegins : EscapePass.beginsWithDollar entry.replacement with
      | true =>
          rw [List.append_assoc]
          exact head?_dollarGuard_append _
      | false =>
          rw [EscapePass.beginsWithDollar, hcons] at hbegins
          simpa [hcons] using hbegins
  | @copy b rest hnone hkey =>
      rw [outputFrom_copy hnone hkey]
      exact head?_gap_append_ne_dollar (htext.imp_right fun hne => by simpa using hne) rfl

theorem head?_outputFrom_newline (htable : escaper.table.IsInert)
    (hinserted : state.inserted = false)
    (htext : ∀ b, text.head? = some b → b = ('\n' : UInt8)) :
    ∀ b, (escaper.outputFrom state text).head? = some b → b = ('\n' : UInt8) := by
  have hline : ∀ rest, construct? state.context (('\n' : UInt8) :: rest) = none :=
    fun rest => construct?_eq_none_of_head (by decide) (by decide) (by decide) rest
  cases text with
  | nil =>
      rw [outputFrom_nil]
      simp
  | cons b rest =>
      obtain rfl := htext b rfl
      rw [outputFrom_copy (hline rest) (.inr (Tracks.match?_eq_none htable (by decide))),
        State.gap, hinserted]
      intro first hfirst
      cases hfirst
      rfl

/-! ## Steps -/

namespace Accepts

variable {holds : LeftContext → Text → Prop} (hholds : escaper.Accepts holds)

include hholds

theorem gap (htable : escaper.table.IsInert) (h : state.Knows written) {next : Option UInt8}
    (hrest : holds (written.pushAll (state.gap next)) target) :
    holds written (state.gap next ++ target) := by
  rw [State.gap] at hrest ⊢
  split
  · next hguard =>
      rw [if_pos hguard] at hrest
      rw [Bool.and_eq_true] at hguard
      obtain ⟨rfl, -⟩ := h.inserted hguard.1
      exact hholds.writes_plain htable (by decide) rfl hrest
  · next hguard =>
      rw [if_neg hguard] at hrest
      exact hrest

theorem separated (htable : escaper.table.IsInert) (h : state.Knows written)
    (hescaped : state.context.escaped = false) {replacement : Text}
    (hrest : holds (written.pushAll (State.Knows.separated state replacement)) target) :
    holds written (State.Knows.separated state replacement ++ target) := by
  rw [State.Knows.separated] at hrest ⊢
  split
  · next hguard =>
      rw [if_pos hguard] at hrest
      exact hholds.writes_plain htable (by decide) (h.escaped.trans hescaped) hrest
  · next hguard =>
      rw [if_neg hguard] at hrest
      exact hrest

theorem replacement (htable : escaper.table.IsKnown) {entry : EscapeRule}
    (hentry : entry ∈ escaper.table.entries) (hne : entry.replacement ≠ [])
    (hescaped : written.escaped = false)
    (hbegins : EscapePass.beginsWithDollar entry.replacement = true →
      written = ⟨false, false⟩)
    (htarget : EscapePass.endsInDollar entry.replacement = true →
      target.head? ≠ some ('$' : UInt8))
    (hrest : holds (written.pushAll entry.replacement) target) :
    holds written (entry.replacement ++ target) := by
  have hknown := htable.known entry hentry hne
  rw [isKnownReplacement, Bool.or_eq_true] at hknown
  rcases hknown with hplain | hmath
  · exact hholds.writes_plain htable.toIsInert hplain hescaped hrest
  · have hfound := beq_iff_eq.mp hmath
    have hends : EscapePass.endsInDollar entry.replacement = true := by
      obtain ⟨inner, hinner⟩ := Recognizer.inlineMath_take_eq hfound
      rw [List.take_length] at hinner
      rw [EscapePass.endsInDollar, hinner, List.getLast?_append_of_ne_nil _ (by simp)]
      rfl
    have hbegin : EscapePass.beginsWithDollar entry.replacement = true := by
      obtain ⟨b, rest, hcons, hlone, -⟩ := Recognizer.inlineMath_eq_some_iff.mp hfound
      rw [hcons, Recognizer.isLoneDollar] at hlone
      simp only [Bool.and_eq_true] at hlone
      rw [EscapePass.beginsWithDollar, hcons, List.head?_cons]
      simpa using hlone.1.1.1
    exact hholds.writes_math hmath (hbegins hbegin) (htarget hends) hrest

theorem replaces (htable : escaper.table.IsKnown) (hregions : escaper.PreservesRegions)
    (h : state.Knows written) {entry : EscapeRule} {rest : Text}
    (hentry : entry ∈ escaper.table.entries)
    (hnone : construct? state.context (entry.key ++ rest) = none)
    (hescaped : state.context.escaped = false)
    (hmatch : escaper.table.match? (entry.key ++ rest) = some entry)
    (hkept : ∀ place ∈ plainPlacesFrom state.context (entry.key ++ rest),
      place.isDeleted escaper.table = false)
    (hrest : ∀ written', (state.replace entry).Knows written' →
      holds written' (escaper.outputFrom (state.replace entry) rest)) :
    holds written (escaper.outputFrom state (entry.key ++ rest)) := by
  have hstays := htable.staysInside entry hentry
  obtain ⟨-, hplaces⟩ := mem_plainPlacesFrom_key hstays.1 hstays.2 hnone
  have hne := replacement_ne_nil hentry htable.staysInside hnone hescaped hmatch hkept
  have hinert := htable.inert entry hentry hne
  obtain ⟨hfree, hbegins⟩ := h.separated_spec hescaped entry.replacement
  have hknows := State.Knows.replace state
    (pushAll_of_isOrdinary hstays.1 (htable.ordinary entry hentry)) hinert hfree
  have hempty : entry.replacement.isEmpty = false := List.isEmpty_eq_false_iff.mpr hne
  rw [outputFrom_replace hnone hmatch hescaped hstays.1, State.Knows.written_eq,
    List.append_assoc]
  refine hholds.separated htable.toIsInert h hescaped
    (hholds.replacement htable hentry hne hfree hbegins (fun hends => ?_) (hrest _ hknows))
  refine head?_outputFrom_ne_dollar htable.staysInside hregions ?_ (.inl ?_)
    fun place hplace => hkept place (hplaces place hplace)
  · rw [State.replace, hempty, if_neg Bool.false_ne_true]
    exact beq_iff_eq.mp hends
  · rw [State.replace, hempty, if_neg Bool.false_ne_true]
    exact hends

end Accepts

theorem construct?_outputFrom (htable : escaper.table.IsInert)
    (hregions : escaper.PreservesRegions) (h : state.Knows written) {kind : RegionKind}
    {name body rest : Text} (hbody : body ≠ [])
    (hfound : construct? state.context (body ++ rest) = some (kind, ⟨body.length, name⟩))
    (hkept : ∀ place ∈ plainPlacesFrom (state.context.pushAll body) rest,
      place.isDeleted escaper.table = false) :
    construct? (written.pushAll (state.gap body.head?))
        (escaper.shielded ⟨kind, name, body⟩ ++ escaper.outputFrom (state.pass body) rest) =
      some (kind, ⟨(escaper.shielded ⟨kind, name, body⟩).length, name⟩) ∧
    (written.pushAll (state.gap body.head?)).pushAll (escaper.shielded ⟨kind, name, body⟩) =
      state.context.pushAll body := by
  have hescaped := escaped_of_construct? hfound
  have hregion : escaper.Preserves ⟨kind, name, body⟩ := by simpa using hregions hfound
  obtain ⟨b, others, hcons⟩ := List.exists_cons_of_ne_nil hbody
  have hhead : body.head? = some b := by
    rw [hcons]
    rfl
  obtain ⟨hgap, hdollar⟩ := h.gap b
  have hfree := hgap.trans hescaped
  rw [hhead]
  refine ⟨?_, by rw [hregion.behind, LeftContext.pushAll_congr hbody hgap]⟩
  cases hregion with
  | same hsame =>
      rw [hsame]
      have hcontext : ∀ text, construct? (written.pushAll (state.gap (some b))) (body ++ text) =
          construct? state.context (body ++ text) := by
        intro text
        refine construct?_context hgap fun hhead' => hdollar ?_
        rw [hcons] at hhead'
        exact Option.some.inj hhead'
      rw [hcontext]
      -- Three kinds of constructs look at what follows them, each at something else.
      refine construct?_again hfound ?_ ?_ ?_
      · exact head?_outputFrom_newline htable rfl
      · intro hlast hne
        refine head?_outputFrom_ne_dollar htable.staysInside hregions ?_ (.inr hne) hkept
        rw [LeftContext.pushAll_dollar _ hbody] at hlast
        exact beq_iff_eq.mp hlast
      · intro hcontext hnone
        refine Rewrites.definitionArguments?_eq_none
          (rewrites_outputFrom htable hregions (state.pass body) rest _ (.pass state hbody)
            hkept) ?_ ?_ hnone
        · rw [hcontext]
        · rw [hcontext]
  | inside name _ _ _ hagain => exact hagain _ _ hfree

theorem gap_of_dollar (h : state.Knows written) {b : UInt8}
    (hdollar : b = '$' → state.context.escaped = true) : state.gap (some b) = [] := by
  by_cases hb : b = '$'
  · rw [State.gap]
    cases hinserted : state.inserted with
    | false => rfl
    | true =>
        have hescaped := hdollar hb
        rw [(h.inserted hinserted).2] at hescaped
        cases hescaped
  · exact gap_of_ne_dollar (by simpa using hb)

theorem match?_outputFrom (htable : escaper.table.IsInert) (h : state.Knows written) {b : UInt8}
    {rest : Text} (hkey : state.context.escaped = true ∨ escaper.table.match? (b :: rest) = none)
    (hrewrites : Rewrites (written.push b) rest target) :
    written.escaped = true ∨ escaper.table.match? (b :: target) = none :=
  hkey.imp h.escaped.trans (htable.match?_eq_none_of_rewrites hrewrites)

namespace Tracks

theorem construct (htable : escaper.table.IsInert) (hregions : escaper.PreservesRegions)
    (h : state.Knows written) {kind : RegionKind} {name body rest : Text} (hbody : body ≠ [])
    (hfound : construct? state.context (body ++ rest) = some (kind, ⟨body.length, name⟩))
    (hkept : ∀ place ∈ plainPlacesFrom (state.context.pushAll body) rest,
      place.isDeleted escaper.table = false)
    (hrest : escaper.Tracks (state.context.pushAll body) rest (state.context.pushAll body)
      (escaper.outputFrom (state.pass body) rest)) :
    escaper.Tracks state.context (body ++ rest) written
      (escaper.outputFrom state (body ++ rest)) := by
  have hregion : escaper.Preserves ⟨kind, name, body⟩ := by simpa using hregions hfound
  have hshielded := hregion.ne_nil hbody
  obtain ⟨hagain, hbehind⟩ := construct?_outputFrom htable hregions h hbody hfound hkept
  rw [outputFrom_construct hbody hfound]
  refine accepts.gap htable h (@Tracks.keep escaper _ _ ⟨kind, name, body⟩ _ _ hbody
    hshielded hfound hagain ?_)
  rw [hbehind]
  exact hrest

theorem copy (htable : escaper.table.IsInert) (h : state.Knows written) {b : UInt8}
    {rest : Text} (hnone : construct? state.context (b :: rest) = none)
    (hkey : state.context.escaped = true ∨ escaper.table.match? (b :: rest) = none)
    (hdollar : b = '$' → state.context.escaped = true)
    (hclosed : Recognizer.hasOpenArguments state.context (b :: rest) = false)
    (hrewrites : Rewrites (written.push b) rest (escaper.outputFrom (state.copy b) rest))
    (hdefinition : Recognizer.definition written
      (b :: escaper.outputFrom (state.copy b) rest) = none)
    (hrest : escaper.Tracks (state.context.push b) rest (written.push b)
      (escaper.outputFrom (state.copy b) rest)) :
    escaper.Tracks state.context (b :: rest) written
      (escaper.outputFrom state (b :: rest)) := by
  rw [outputFrom_copy hnone hkey, gap_of_dollar h hdollar, List.nil_append]
  refine .drop hnone (.write ?_ (match?_outputFrom htable h hkey hrewrites) hrest)
  exact hrewrites.construct?_eq_none h.escaped.symm
    (fun hb => h.escaped.trans (hdollar hb)) hdefinition hclosed hnone

end Tracks

/-! ## Definitions that a replacement completes -/

theorem outputFrom_letters (htable : escaper.table.IsInert) (state : State) {bytes : Text}
    (hbytes : bytes ≠ [])
    (hletters : ∀ b ∈ bytes, Ascii.isLetter b = true) (rest : Text) :
    escaper.outputFrom state (bytes ++ rest) =
      bytes ++ escaper.outputFrom (state.pass bytes) rest := by
  induction bytes generalizing state with
  | nil => exact absurd rfl hbytes
  | cons b others ih =>
      have hb := hletters b List.mem_cons_self
      have hspecial : ∀ other : UInt8, Ascii.isLetter other = false → b ≠ other := by
        rintro other hother rfl
        rw [hb] at hother
        cases hother
      have hnone : construct? state.context (b :: (others ++ rest)) = none :=
        construct?_eq_none_of_head (hspecial _ (by decide)) (hspecial _ (by decide))
          (hspecial _ (by decide)) _
      have hcopy := outputFrom_copy hnone
        (.inr (Tracks.match?_eq_none htable (Rewrites.isOrdinary_of_isLetter hb)))
      rw [gap_of_ne_dollar (by simpa using hspecial '$' (by decide)), List.nil_append] at hcopy
      rw [List.cons_append, hcopy]
      cases others with
      | nil => rfl
      | cons second others =>
          rw [ih _ (List.cons_ne_nil second others)
            fun b hb => hletters b (List.mem_cons_of_mem _ hb)]
          rfl

theorem exists_of_head?_outputFrom (htable : escaper.table.IsInert)
    (hregions : escaper.PreservesRegions) (hinserted : state.inserted = false)
    (hlast : state.last ≠ some ('$' : UInt8))
    (houtput : (escaper.outputFrom state text).head? = some ('\\' : UInt8))
    (htext : text.head? ≠ some ('\\' : UInt8)) :
    ∃ entry rest, entry ∈ escaper.table.entries ∧ text = entry.key ++ rest ∧
      construct? state.context (entry.key ++ rest) = none ∧ state.context.escaped = false ∧
        escaper.table.match? (entry.key ++ rest) = some entry ∧
          escaper.outputFrom state text =
            entry.replacement ++ escaper.outputFrom (state.replace entry) rest := by
  cases step htable.staysInside state.context text with
  | nil =>
      rw [outputFrom_nil] at houtput
      cases houtput
  | @construct kind name body rest hbody hfound =>
      have hregion : escaper.Preserves ⟨kind, name, body⟩ := by simpa using hregions hfound
      obtain ⟨b, others, rfl⟩ := List.exists_cons_of_ne_nil hbody
      obtain ⟨shielded, hshielded⟩ := List.head?_eq_some_iff.mp hregion.head
      rw [outputFrom_construct hbody hfound, State.gap_of_copied hinserted, hshielded] at houtput
      exact absurd houtput htext
  | @replace entry rest hentry hkey hnone hescaped hmatch =>
      refine ⟨entry, rest, hentry, rfl, hnone, hescaped, hmatch, ?_⟩
      have hseparated : State.Knows.separated state entry.replacement = [] := by
        have hlast' : (state.last == some ('$' : UInt8)) = false := by simpa using hlast
        rw [State.Knows.separated, hlast', Bool.and_false, if_neg Bool.false_ne_true]
      rw [outputFrom_replace hnone hmatch hescaped hkey, State.Knows.written_eq, hseparated,
        List.nil_append]
  | @copy b rest hnone hkey =>
      rw [outputFrom_copy hnone hkey, State.gap_of_copied hinserted] at houtput
      exact absurd houtput htext

theorem not_special_of_isLetter {b : UInt8} (hb : Ascii.isLetter b = true) :
    b ≠ '%' ∧ b ≠ '$' ∧ b ≠ '\\' := by
  refine ⟨?_, ?_, ?_⟩ <;> (rintro rfl; revert hb; decide)

def definitionWord : Text := "def"

theorem isLetter_of_mem_definitionWord : ∀ b ∈ definitionWord, Ascii.isLetter b = true :=
  List.all_eq_true.mp (by decide)

theorem mem_plainPlacesFrom_definition {rest : Text}
    (hnone : construct? context (('\\' : UInt8) :: (definitionWord ++ rest)) = none)
    {place : BytePlace}
    (h : place ∈ plainPlacesFrom ((context.push '\\').pushAll definitionWord) rest) :
    place ∈ plainPlacesFrom context (('\\' : UInt8) :: (definitionWord ++ rest)) := by
  rw [plainPlacesFrom_plain hnone]
  exact List.mem_cons_of_mem _ (mem_plainPlacesFrom_append
    (fun b hb => not_special_of_isLetter (isLetter_of_mem_definitionWord b hb)) h)

theorem definition_of_isNameOrDefinition {replacement rest : Text} {found : Construct}
    (hname : isNameOrDefinition replacement = true)
    (hhead : replacement.head? = some ('\\' : UInt8)) (hwritten : written.escaped = false)
    (hfound : Recognizer.definition written
      (('\\' : UInt8) :: (definitionWord ++ (replacement ++ rest))) = some found) :
    construct? written (('\\' : UInt8) :: (definitionWord ++ replacement) ++ rest) =
      some (.definition, ⟨(('\\' : UInt8) :: (definitionWord ++ replacement)).length, []⟩) := by
  have hmem : (RegionKind.definition, Recognizer.definition) ∈ Recognizer.table := by
    simp [Recognizer.table]
  have hdefinition : Text.ofString "\\def" = ('\\' : UInt8) :: definitionWord := by decide
  simp only [isNameOrDefinition, Bool.or_eq_true, bne_iff_ne, ne_eq, hhead, not_true_eq_false,
    false_or, beq_iff_eq, hdefinition, List.cons_append] at hname
  rcases hname with hnot | hdefinition
  · obtain ⟨behind, rfl⟩ := List.head?_eq_some_iff.mp hhead
    obtain ⟨-, -, name, -, hafter, hname, -⟩ := Recognizer.definition_eq_some_iff.mp hfound
    rw [afterControlWord_cons_append isLetter_of_mem_definitionWord
      (by simp; decide)] at hafter
    obtain rfl := (List.cons.inj hafter).2
    cases behind with
    | nil => cases hnot
    | cons b others =>
        have hb : Recognizer.isMacroNameByte b = false := by simpa using hnot
        exact absurd (List.takeWhile_cons_of_neg (by simp [hb])) hname
  · refine construct?_eq_some_iff.mpr ⟨Recognizer.definition, hmem, ?_⟩
    have hagain := Recognizer.definition_isSelfContained.again hdefinition rest
    rw [List.take_length] at hagain
    refine (Recognizer.context_irrelevant hmem hwritten ?_).trans hagain
    rw [List.cons_append, List.head?_cons]
    decide

theorem exists_name_of_definition (htable : escaper.table.IsKnown)
    (hregions : escaper.PreservesRegions) (h : state.Knows written) {b : UInt8} {rest : Text}
    (hnone : construct? state.context (b :: rest) = none)
    (hclosed : Recognizer.hasOpenArguments state.context (b :: rest) = false)
    (hkept : ∀ place ∈ plainPlacesFrom state.context (b :: rest),
      place.isDeleted escaper.table = false)
    (hrewrites : Rewrites (written.push b) rest (escaper.outputFrom (state.copy b) rest))
    {found : Construct}
    (hfound : Recognizer.definition written
      (b :: escaper.outputFrom (state.copy b) rest) = some found) :
    ∃ entry behind, entry ∈ escaper.table.entries ∧ b = '\\' ∧ written.escaped = false ∧
      rest = definitionWord ++ (entry.key ++ behind) ∧
        construct? ((state.copy b).pass definitionWord).context (entry.key ++ behind) = none ∧
          entry.replacement ≠ [] ∧
            escaper.outputFrom (state.copy b) rest =
              definitionWord ++ (entry.replacement ++
                escaper.outputFrom (((state.copy b).pass definitionWord).replace entry) behind) ∧
            entry.replacement.head? = some ('\\' : UInt8) := by
  obtain ⟨hwritten, hword, behind, group, hafter, -⟩ :=
    Recognizer.definition_eq_some_iff.mp hfound
  have hb : b = '\\' := by
    have hhead := head?_eq_of_controlWord_ne_nil
      (show controlWord (b :: escaper.outputFrom (state.copy b) rest) ≠ [] by
        rw [hword]
        decide)
    simpa using hhead
  subst hb
  have houtput := eq_cons_controlWord_append
    (show (('\\' : UInt8) :: escaper.outputFrom (state.copy '\\') rest).head? = _ from rfl)
  rw [hword, hafter, List.cons.injEq] at houtput
  rw [Rewrites.push_backslash hwritten] at hrewrites
  rw [hrewrites.controlWord.1] at hword
  -- Without a replacement behind its word, the definition would have begun in the text.
  have hhead : (afterControlWord (('\\' : UInt8) :: rest)).head? ≠ some ('\\' : UInt8) := by
    intro hhead
    have hnot : Recognizer.definition written _ = none :=
      hrewrites.definition_eq_none (h.escaped.symm.trans hwritten) (fun _ _ => hhead) hclosed
    rw [hnot] at hfound
    cases hfound
  have hsplit := eq_cons_controlWord_append
    (show (('\\' : UInt8) :: rest).head? = _ from rfl)
  rw [hword, List.cons.injEq] at hsplit
  generalize afterControlWord (('\\' : UInt8) :: rest) = behindWord at hsplit hhead
  obtain ⟨-, hrest⟩ := hsplit
  have hdefinition : Text.ofString "def" = definitionWord := rfl
  rw [hdefinition] at hrest houtput
  subst hrest
  have hletters := outputFrom_letters htable.toIsInert (state.copy '\\')
    (show definitionWord ≠ [] by decide) isLetter_of_mem_definitionWord behindWord
  rw [hletters, List.append_cancel_left_eq] at houtput
  obtain ⟨entry, last, hentry, rfl, hnone', hescaped, hmatch, hreplaced⟩ :=
    exists_of_head?_outputFrom htable.toIsInert hregions rfl
      (show definitionWord.getLast? ≠ some ('$' : UInt8) by decide)
      (by rw [houtput.2]; rfl) hhead
  have hne := replacement_ne_nil hentry htable.staysInside hnone' hescaped hmatch
    fun place hplace => hkept place (mem_plainPlacesFrom_definition hnone hplace)
  refine ⟨entry, last, hentry, rfl, hwritten, rfl, hnone', hne, by rw [hletters, hreplaced], ?_⟩
  have hout := congrArg List.head? (hreplaced.symm.trans houtput.2)
  rwa [List.head?_append_of_ne_nil _ hne] at hout

namespace Tracks

theorem definition (htable : escaper.table.IsKnown) (hregions : escaper.PreservesRegions)
    (h : state.Knows written) {b : UInt8} {rest : Text}
    (hnone : construct? state.context (b :: rest) = none)
    (hkey : state.context.escaped = true ∨ escaper.table.match? (b :: rest) = none)
    (hclosed : Recognizer.hasOpenArguments state.context (b :: rest) = false)
    (hkept : ∀ place ∈ plainPlacesFrom state.context (b :: rest),
      place.isDeleted escaper.table = false)
    (hrewrites : Rewrites (written.push b) rest (escaper.outputFrom (state.copy b) rest))
    {found : Construct}
    (hfound : Recognizer.definition written
      (b :: escaper.outputFrom (state.copy b) rest) = some found)
    (hrest : ∀ (state' : State) (behind : Text) (written' : LeftContext),
      behind <:+ rest → state'.Knows written' →
        (∀ place ∈ plainPlacesFrom state'.context behind,
          place ∈ plainPlacesFrom state.context (b :: rest)) →
        escaper.Tracks state'.context behind written'
          (escaper.outputFrom state' behind)) :
    escaper.Tracks state.context (b :: rest) written
      (escaper.outputFrom state (b :: rest)) := by
  obtain ⟨entry, behind, hentry, rfl, hwritten, rfl, hnone', hne, houtput, hreplacement⟩ :=
    exists_name_of_definition htable hregions h hnone hclosed hkept hrewrites hfound
  have hstays := htable.staysInside entry hentry
  obtain ⟨-, hbehind⟩ := mem_plainPlacesFrom_key hstays.1 hstays.2 hnone'
  rw [houtput] at hfound
  have hregion := definition_of_isNameOrDefinition (htable.names entry hentry) hreplacement
    hwritten hfound
  have hgap : state.gap (some '\\') = [] := gap_of_ne_dollar (by decide)
  rw [outputFrom_copy hnone hkey, hgap, houtput, List.nil_append]
  -- The name goes as plain bytes, and comes back in the region that is added.
  refine .drop hnone (drops (fun b hb =>
    not_special_of_isLetter (isLetter_of_mem_definitionWord b hb))
      (drops_key hstays.1 hstays.2 hnone' ?_))
  have hword : (written.pushAll (('\\' : UInt8) :: definitionWord)).escaped = false := by
    rw [LeftContext.pushAll_cons, Rewrites.pushAll_of_isCopyable (by decide +kernel)
      (by decide +kernel)]
  have hknows := State.Knows.replace ((state.copy '\\').pass definitionWord)
    (pushAll_of_isOrdinary hstays.1 (htable.ordinary entry hentry))
    (htable.inert entry hentry hne) hword
  have hlast := hrest _ behind _ ((List.suffix_append _ _).trans (List.suffix_append _ _)) hknows
    fun place hplace => mem_plainPlacesFrom_definition hnone (hbehind place hplace)
  rw [← LeftContext.pushAll_append, List.cons_append] at hlast
  have hadded := @Tracks.add escaper _ written
    ⟨.definition, [], ('\\' : UInt8) :: (definitionWord ++ entry.replacement)⟩ behind _
    (List.cons_ne_nil _ _) nofun hregion hlast
  have hcontext : (((state.copy '\\').pass definitionWord).replace entry).context =
      ((state.context.push '\\').pushAll definitionWord).pushAll entry.key := rfl
  rw [hcontext] at hadded
  simpa using hadded

end Tracks

/-! ## The whole output -/

/-- The output for a text of calm places tracks the text. -/
theorem tracks_outputFrom (htable : escaper.table.IsKnown) (hregions : escaper.PreservesRegions)
    (state : State) (text : Text) (written : LeftContext) (h : state.Knows written)
    (hcalm : ∀ place ∈ plainPlacesFrom state.context text,
      place.IsCalm escaper.table) :
    escaper.Tracks state.context text written (escaper.outputFrom state text) := by
  induction state, text using pass_induction htable.staysInside generalizing written with
  | nil state =>
      exact .rest written _ shieldedFrom_nil
  | @construct state kind name body rest hbody hfound ih =>
      rw [plainPlacesFrom_construct hbody hfound] at hcalm
      exact .construct htable.toIsInert hregions h hbody hfound
        (fun place hplace => (hcalm place hplace).kept) (ih _ (.pass state hbody) hcalm)
  | @replace state entry rest hentry hkey hnone hescaped hmatch ih =>
      have hstays := htable.staysInside entry hentry
      obtain ⟨-, hplaces⟩ := mem_plainPlacesFrom_key hkey hstays.2 hnone
      exact Tracks.accepts.replaces htable hregions h hentry hnone hescaped hmatch
        (fun place hplace => (hcalm place hplace).kept) fun written' hknows =>
          .drops_key hkey hstays.2 hnone
            (ih written' hknows fun place hplace => hcalm place (hplaces place hplace))
  | @copy state b rest hnone hkey ih =>
      -- Behind the last region, arguments may be open and nothing is to be tracked.
      by_cases hlast : shieldedFrom state.context (b :: rest) = []
      · exact .rest written _ hlast
      have hkept : ∀ place ∈ plainPlacesFrom state.context (b :: rest),
          place.isDeleted escaper.table = false := fun place hplace => (hcalm place hplace).kept
      rw [plainPlacesFrom_plain hnone, List.forall_mem_cons] at hcalm
      have hrewrites := rewrites_outputFrom htable.toIsInert hregions (state.copy b) rest _
        (h.copied_push b) fun place hplace => (hcalm.2 place hplace).kept
      cases hfound : Recognizer.definition written
          (b :: escaper.outputFrom (state.copy b) rest) with
      | none =>
          exact .copy htable.toIsInert h hnone hkey
            (fun hb => hcalm.1.dollar (by rw [hb]; rfl)) (hcalm.1.closed hlast) hrewrites hfound
            (ih _ rest List.suffix_rfl _ (h.copied_push b) hcalm.2)
      | some found =>
          refine .definition htable hregions h hnone hkey (hcalm.1.closed hlast) hkept hrewrites
            hfound fun state' behind written' hbehind hknows hplaces => ?_
          rw [plainPlacesFrom_plain hnone] at hplaces
          exact ih state' behind hbehind written' hknows fun place hplace =>
            List.forall_mem_cons.mpr hcalm place (hplaces place hplace)

end Escaper

end LatexIntegrity
