import LatexIntegrity.Proofs.Sanitize.Simulation

/-!
# What a pass inserts

The pass goes on behind a replacement whose braces are a pair at its end, whether or not these
braces close an argument of the text.  The braces inside of a formula do harm where they close
one, since the rest of the formula is then read apart from them.
-/

namespace LatexIntegrity

open EscapePass (State)
open Environment (wrap)

/-! ## Braces of replacements -/

/-- The braces of a replacement are a pair at its end, and a name has them behind it. -/
structure IsGuarded (chunk : Text) : Prop where
  opener : ∀ suffix ∈ chunk.tails, suffix.head? = some ('{' : UInt8) → suffix = dollarGuard
  closer : ∀ suffix ∈ chunk.tails, suffix.head? = some ('}' : UInt8) → suffix = [('}' : UInt8)]
  name : chunk.head? = some ('\\' : UInt8) →
    (chunk.drop 1).head?.any Recognizer.isMacroNameByte = true → ('{' : UInt8) ∈ chunk

instance (chunk : Text) : Decidable (IsGuarded chunk) :=
  decidable_of_iff
    ((∀ suffix ∈ chunk.tails, suffix.head? = some ('{' : UInt8) → suffix = dollarGuard) ∧
      (∀ suffix ∈ chunk.tails, suffix.head? = some ('}' : UInt8) →
        suffix = [('}' : UInt8)]) ∧
        (chunk.head? = some ('\\' : UInt8) →
          (chunk.drop 1).head?.any Recognizer.isMacroNameByte = true → ('{' : UInt8) ∈ chunk))
    ⟨fun ⟨opener, closer, name⟩ => ⟨opener, closer, name⟩,
      fun ⟨opener, closer, name⟩ => ⟨opener, closer, name⟩⟩

/-- A formula in which no closing brace is the last byte or stands in front of a brace. -/
structure IsBracedFormula (chunk : Text) : Prop where
  head : chunk.head? = some ('$' : UInt8)
  closer : ∀ suffix ∈ chunk.tails, suffix.head? = some ('}' : UInt8) →
    (suffix.drop 1).head?.any (· != ('{' : UInt8)) = true

instance (chunk : Text) : Decidable (IsBracedFormula chunk) :=
  decidable_of_iff
    (chunk.head? = some ('$' : UInt8) ∧
      ∀ suffix ∈ chunk.tails, suffix.head? = some ('}' : UInt8) →
        (suffix.drop 1).head?.any (· != ('{' : UInt8)) = true)
    ⟨fun ⟨head, closer⟩ => ⟨head, closer⟩, fun ⟨head, closer⟩ => ⟨head, closer⟩⟩

def endsInBrace (chunk : Text) : Bool := chunk.getLast? == some ('}' : UInt8)

def hasInnerBrace (chunk : Text) : Bool := chunk.elem ('}' : UInt8) && !endsInBrace chunk

namespace IsGuarded

variable {chunk behind : Text}

theorem dollarGuard : IsGuarded dollarGuard := by decide

theorem eq_of_opener (h : IsGuarded chunk) (hsuffix : ('{' : UInt8) :: behind <:+ chunk) :
    behind = [('}' : UInt8)] :=
  (List.cons.inj (h.opener _ ((List.mem_tails _ _).mpr hsuffix) rfl)).2

theorem eq_of_closer (h : IsGuarded chunk) (hsuffix : ('}' : UInt8) :: behind <:+ chunk) :
    behind = [] :=
  (List.cons.inj (h.closer _ ((List.mem_tails _ _).mpr hsuffix) rfl)).2

theorem exists_append (h : IsGuarded chunk) (hbrace : ('}' : UInt8) ∈ chunk) :
    ∃ before, chunk = before ++ [('}' : UInt8)] := by
  obtain ⟨before, behind, rfl⟩ := List.append_of_mem hbrace
  exact ⟨before, by rw [h.eq_of_closer (List.suffix_append _ _)]⟩

theorem pushAll_eq (h : IsGuarded chunk) (hbrace : ('}' : UInt8) ∈ chunk)
    (context : LeftContext) : context.pushAll chunk = ⟨false, false⟩ := by
  obtain ⟨before, rfl⟩ := h.exists_append hbrace
  rw [LeftContext.pushAll_append]
  rfl

theorem endsInBrace (h : IsGuarded chunk) (hbrace : ('}' : UInt8) ∈ chunk) :
    endsInBrace chunk = true := by
  obtain ⟨before, rfl⟩ := h.exists_append hbrace
  simp [LatexIntegrity.endsInBrace]

end IsGuarded

/-- A table of known replacements, whose braces are a pair at the end or those of a formula. -/
structure EscapeTable.ClosesBraces (table : EscapeTable) : Prop extends table.IsKnown where
  guarded : ∀ entry ∈ table.entries, hasInnerBrace entry.replacement = false →
    IsGuarded entry.replacement
  formula : ∀ entry ∈ table.entries, hasInnerBrace entry.replacement = true →
    IsBracedFormula entry.replacement

/-! ## Places -/

/-- Whether a key in front of a brace is replaced by something that ends in a brace. -/
def EscapeTable.splits (table : EscapeTable) (argument : Text) : Bool :=
  table.entries.any fun entry => endsInBrace entry.replacement &&
    decide (entry.key ++ [('{' : UInt8)] <:+: argument)

def Group.isLeftOpen (text : Text) : Bool :=
  text.head? == some ('{' : UInt8) && !text.elem ('}' : UInt8)

/--
Whether an argument of a command is left open in the text behind its word.  The second
argument of a link may be one that only the replacement of a key in the first one begins.
-/
def EscapeTable.leavesOpen (table : EscapeTable) (word text : Text) : Bool :=
  if Recognizer.singleArgumentCommands.contains word then Group.isLeftOpen text
  else if Recognizer.isCitationCommand word then
    (Recognizer.optionalArguments? 2 text).any fun options => Group.isLeftOpen (text.drop options)
  else if word == "href" then
    match Group.argument? text with
    | some first => Group.isLeftOpen (text.drop first)
    | none => Group.isLeftOpen text && table.splits text
  else false

theorem EscapeTable.leavesOpen_href_of_some {table : EscapeTable} {text : Text} {first : Nat}
    (h : Group.argument? text = some first) :
    table.leavesOpen "href" text = Group.isLeftOpen (text.drop first) := by
  rw [leavesOpen, if_neg (by decide), if_neg (by decide), if_pos (by decide), h]

theorem EscapeTable.leavesOpen_href_of_none {table : EscapeTable} {text : Text}
    (h : Group.argument? text = none) :
    table.leavesOpen "href" text = (Group.isLeftOpen text && table.splits text) := by
  rw [leavesOpen, if_neg (by decide), if_neg (by decide), if_pos (by decide), h]

/--
The bytes behind a control word among which an inserted brace completes what the word begins:
all of them for an argument that is left open, and those in front of the group of a definition.
-/
def EscapeTable.openLength (table : EscapeTable) (word text : Text) : Nat :=
  if table.leavesOpen word text then text.length
  else if word == "def" && text.head? == some ('\\' : UInt8) &&
      !((text.drop 1).takeWhile Recognizer.isMacroNameByte).isEmpty then
    (text.takeWhile (· != ('{' : UInt8))).length
  else 0

theorem EscapeTable.openLength_definition {table : EscapeTable} {behind : Text}
    (hname : behind.takeWhile Recognizer.isMacroNameByte ≠ []) :
    table.openLength "def" (('\\' : UInt8) :: behind) =
      ((('\\' : UInt8) :: behind).takeWhile (· != ('{' : UInt8))).length := by
  have hleaves : table.leavesOpen "def" (('\\' : UInt8) :: behind) = false := by
    rw [leavesOpen, if_neg (by decide), if_neg (by decide), if_neg (by decide)]
  have hname' : (behind.takeWhile Recognizer.isMacroNameByte).isEmpty = false := by
    simpa using hname
  rw [openLength, hleaves, if_neg Bool.false_ne_true, List.head?_cons, List.drop_succ_cons,
    List.drop_zero, hname']
  rfl

namespace BytePlace

def insertsFormula (table : EscapeTable) (place : BytePlace) : Bool :=
  !place.context.escaped && (table.match? place.rest).any fun entry =>
    hasInnerBrace entry.replacement

theorem rest_ne_nil_of_insertsFormula {table : EscapeTable} (htable : table.StaysInside)
    {place : BytePlace} (h : place.insertsFormula table = true) : place.rest ≠ [] := by
  intro hnil
  rw [insertsFormula, hnil] at h
  cases hmatch : table.match? [] with
  | none => simp [hmatch] at h
  | some entry =>
      obtain ⟨hentry, hkey⟩ := EscapeTable.match?_eq_some hmatch
      exact (htable entry hentry).1 (List.prefix_nil.mp hkey)

/--
A command or definition in whose open part a key is replaced by a formula with braces inside.
These braces complete it, and what is left of the formula is torn off.
-/
def tearsFormula (table : EscapeTable) (place : BytePlace) : Bool :=
  let behind := afterControlWord place.rest
  let closed := behind.drop (table.openLength (controlWord place.rest) behind)
  !place.context.escaped && (plainPlacesFrom ⟨false, false⟩ behind).any fun inner =>
    inner.insertsFormula table && decide (closed.length < inner.rest.length)

/--
A `\href` whose first argument holds a key in front of a brace.  If the replacement of the key
ends in a brace, it ends the argument early, and the brace behind it opens the second one.
-/
def splitsLink (table : EscapeTable) (place : BytePlace) : Bool :=
  !place.context.escaped && controlWord place.rest == "href" &&
    (Group.argument? (afterControlWord place.rest)).any fun length =>
      table.splits ((afterControlWord place.rest).take length)

/--
A plain place that a pass leaves settled: no stray dollar sign, no key that is deleted, no link
that is split and no formula that is torn.
-/
structure IsSettled (table : EscapeTable) (place : BytePlace) : Prop where
  dollar : place.rest.head? = some ('$' : UInt8) → place.context.escaped = true
  kept : place.isDeleted table = false
  link : place.splitsLink table = false
  formula : place.tearsFormula table = false

theorem IsSettled.congr {table : EscapeTable} {place other : BytePlace} (h : place.IsSettled table)
    (hrest : other.rest = place.rest) (hescaped : other.context.escaped = place.context.escaped) :
    other.IsSettled table where
  dollar hdollar := hescaped.trans (h.dollar (hrest ▸ hdollar))
  kept := by
    rw [isDeleted, hescaped, hrest]
    exact h.kept
  link := by
    rw [splitsLink, hescaped, hrest]
    exact h.link
  formula := by
    rw [tearsFormula, hescaped, hrest]
    exact h.formula

end BytePlace

theorem BytePlace.tearsFormula_eq_false {table : EscapeTable}
    (htable : ∀ entry ∈ table.entries, hasInnerBrace entry.replacement = false)
    (place : BytePlace) : place.tearsFormula table = false := by
  have hinserts : ∀ inner : BytePlace, inner.insertsFormula table = false := fun inner => by
    rw [insertsFormula]
    cases hmatch : table.match? inner.rest with
    | none => simp
    | some entry => simp [htable entry (EscapeTable.match?_eq_some hmatch).1]
  simp [tearsFormula, hinserts]

/-! ## What is left of a text -/

/--
A scan of a text gets to `rest`, which it reads behind `after`.  A dollar sign in front of a
place makes no difference to it.
-/
structure IsReached (context : LeftContext) (text : Text) (after : LeftContext) (rest : Text) :
    Prop where
  suffix : rest <:+ text
  places : ∀ place ∈ plainPlacesFrom after rest, ∃ other ∈ plainPlacesFrom context text,
    place.rest = other.rest ∧ place.context.escaped = other.context.escaped
  regions : ∀ region ∈ shieldedFrom after rest, region ∈ shieldedFrom context text

namespace IsReached

variable {context after last : LeftContext} {text rest tail body : Text}

theorem refl (context : LeftContext) (text : Text) : IsReached context text context text :=
  ⟨List.suffix_rfl, fun place hplace => ⟨place, hplace, rfl, rfl⟩, fun _ h => h⟩

theorem trans (h : IsReached context text after rest) (h' : IsReached after rest last tail) :
    IsReached context text last tail where
  suffix := h'.suffix.trans h.suffix
  places place hplace := by
    obtain ⟨other, hother, hrest, hescaped⟩ := h'.places place hplace
    obtain ⟨first, hfirst, hrest', hescaped'⟩ := h.places other hother
    exact ⟨first, hfirst, hrest.trans hrest', hescaped.trans hescaped'⟩
  regions region hregion := h.regions region (h'.regions region hregion)

theorem of_subset (hsuffix : rest <:+ text)
    (hplaces : ∀ place ∈ plainPlacesFrom after rest, place ∈ plainPlacesFrom context text)
    (hregions : ∀ region ∈ shieldedFrom after rest, region ∈ shieldedFrom context text) :
    IsReached context text after rest :=
  ⟨hsuffix, fun place hplace => ⟨place, hplaces place hplace, rfl, rfl⟩, hregions⟩

theorem construct {kind : RegionKind} {name : Text} (hbody : body ≠ [])
    (hfound : construct? context (body ++ rest) = some (kind, ⟨body.length, name⟩)) :
    IsReached context (body ++ rest) (context.pushAll body) rest := by
  refine .of_subset (List.suffix_append _ _) (fun place hplace => ?_) fun region hregion => ?_
  · rwa [plainPlacesFrom_construct hbody hfound]
  · rw [shieldedFrom_construct hbody hfound]
    exact List.mem_cons_of_mem _ hregion

theorem plain {b : UInt8} (hnone : construct? context (b :: rest) = none) :
    IsReached context (b :: rest) (context.push b) rest := by
  refine .of_subset (List.suffix_cons _ _) (fun place hplace => ?_) fun region hregion => ?_
  · rw [plainPlacesFrom_plain hnone]
    exact List.mem_cons_of_mem _ hplace
  · rwa [shieldedFrom_plain hnone]

theorem append (hbody : ∀ b ∈ body, b ≠ '%' ∧ b ≠ '$' ∧ b ≠ '\\') :
    IsReached context (body ++ rest) (context.pushAll body) rest := by
  refine .of_subset (List.suffix_append _ _) (fun place hplace => ?_) fun region hregion => ?_
  · exact mem_plainPlacesFrom_append hbody hplace
  · rwa [shieldedFrom_append hbody]

theorem key (hbody : body ≠ []) (htail : ∀ b ∈ body.tail, b ≠ '%' ∧ b ≠ '$' ∧ b ≠ '\\')
    (hnone : construct? context (body ++ rest) = none) :
    IsReached context (body ++ rest) (context.pushAll body) rest := by
  obtain ⟨b, tail, rfl⟩ := List.exists_cons_of_ne_nil hbody
  exact (plain hnone).trans (append htail)

theorem isSettled {table : EscapeTable} (h : IsReached context text after rest)
    (hsettled : ∀ place ∈ plainPlacesFrom context text, place.IsSettled table) :
    ∀ place ∈ plainPlacesFrom after rest, place.IsSettled table := by
  intro place hplace
  obtain ⟨other, hother, hrest, hescaped⟩ := h.places place hplace
  exact (hsettled other hother).congr hrest hescaped

end IsReached

namespace Escaper

def Resumes (escaper : Escaper) (context : LeftContext) (text source target : Text) : Prop :=
  ∃ state : State, state.Knows ⟨false, false⟩ ∧ target = escaper.outputFrom state source ∧
    IsReached context text state.context source

/-- What the pass over a text inserts, given what is left of the text and of the output. -/
inductive Insertion (escaper : Escaper) (context : LeftContext) (text : Text) :
    Text → Text → Text → Text → Prop
  /-- The pass goes on behind the braces, and a brace behind them stands behind the key. -/
  | guarded {key chunk source target : Text} : IsGuarded chunk → (']' : UInt8) ∉ chunk →
      (('}' : UInt8) ∈ chunk → escaper.Resumes context text source target ∧
        ((∃ entry ∈ escaper.table.entries, entry.key = key ∧
          endsInBrace entry.replacement = true) ∨ target.head? ≠ some ('{' : UInt8))) →
            Insertion escaper context text key chunk source target
  | formula {key chunk source target : Text} {place : BytePlace} : IsBracedFormula chunk →
      (']' : UInt8) ∉ chunk → key ≠ [] → place ∈ plainPlacesFrom context text →
        place.insertsFormula escaper.table = true → place.rest = key ++ source →
          Insertion escaper context text key chunk source target
  /-- The braces of the closer of an environment stand behind, and those of its opener before. -/
  | inside {opener key chunk source target : Text} : (']' : UInt8) ∉ chunk →
      opener ++ (key ++ source) <:+ text → ('{' : UInt8) ∈ opener → ('}' : UInt8) ∈ opener →
        ('}' : UInt8) ∈ source → Insertion escaper context text key chunk source target

variable {escaper : Escaper} {state : State} {written context before : LeftContext}
variable {text whole source target : Text}

theorem Insertion.bracket {key chunk : Text}
    (h : escaper.Insertion context whole key chunk source target) : (']' : UInt8) ∉ chunk := by
  cases h with
  | guarded _ hbracket => exact hbracket
  | formula _ hbracket => exact hbracket
  | inside hbracket => exact hbracket

/-! ## The pass from a brace on -/

def guardedState : State := ⟨⟨false, false⟩, some ('}' : UInt8), false⟩

theorem knows_guardedState : guardedState.Knows ⟨false, false⟩ := ⟨rfl, rfl, nofun, fun _ => rfl⟩

theorem insertion_gap (hregions : escaper.PreservesRegions) (h : state.Knows written)
    {kind : RegionKind} {name body rest : Text} (hbody : body ≠ [])
    (hfound : construct? state.context (body ++ rest) = some (kind, ⟨body.length, name⟩))
    (hreached : IsReached context whole state.context (body ++ rest))
    (hinserted : state.inserted = true) (hdollar : body.head? = some ('$' : UInt8)) :
    escaper.Insertion context whole [] dollarGuard (body ++ rest)
      (escaper.shielded ⟨kind, name, body⟩ ++ escaper.outputFrom (state.pass body) rest) := by
  have hcontext := (h.inserted hinserted).2
  have hregion : escaper.Preserves ⟨kind, name, body⟩ := by simpa using hregions hfound
  refine .guarded .dollarGuard (by decide) fun _ => ⟨⟨guardedState, knows_guardedState, ?_, ?_⟩, ?_⟩
  · rw [hcontext] at hfound
    rw [outputFrom_construct hbody (show construct? guardedState.context _ = _ from hfound)]
    have hpass : state.pass body = guardedState.pass body := by
      rw [State.pass, hcontext]
      rfl
    rw [hpass]
    rfl
  · rwa [hcontext] at hreached
  · right
    have hhead := hregion.head.trans hdollar
    obtain ⟨shielded, hshielded⟩ := List.head?_eq_some_iff.mp hhead
    rw [hshielded, List.cons_append, List.head?_cons]
    decide

section Replace

variable {entry : EscapeRule} {rest : Text}
variable (htable : escaper.table.ClosesBraces) (hentry : entry ∈ escaper.table.entries)
variable (hnone : construct? state.context (entry.key ++ rest) = none)
variable (hescaped : state.context.escaped = false)
variable (hmatch : escaper.table.match? (entry.key ++ rest) = some entry)

include htable hentry hnone hescaped

theorem isReached_guardedState :
    construct? guardedState.context (entry.key ++ rest) = none ∧
      IsReached state.context (entry.key ++ rest) guardedState.context (entry.key ++ rest) := by
  obtain ⟨b, others, hkey⟩ := List.exists_cons_of_ne_nil (htable.staysInside entry hentry).1
  have hb : isOrdinary b = true :=
    htable.ordinary entry hentry b (by rw [hkey]; exact List.mem_cons_self)
  rw [hkey, List.cons_append] at hnone ⊢
  have hnone' : construct? guardedState.context (b :: (others ++ rest)) = none := by
    rw [construct?_context hescaped.symm, hnone]
    intro hhead
    cases hhead
    cases hb
  refine ⟨hnone', List.suffix_rfl, ?_, ?_⟩
  · rw [plainPlacesFrom_plain hnone, plainPlacesFrom_plain hnone', push_of_isOrdinary hb,
      push_of_isOrdinary hb, List.forall_mem_cons]
    exact ⟨⟨_, List.mem_cons_self, rfl, hescaped.symm⟩,
      fun place hplace => ⟨place, List.mem_cons_of_mem _ hplace, rfl, rfl⟩⟩
  · rw [shieldedFrom_plain hnone, shieldedFrom_plain hnone', push_of_isOrdinary hb,
      push_of_isOrdinary hb]
    exact fun _ hregion => hregion

variable (hreached : IsReached context whole state.context (entry.key ++ rest))
variable (hne : entry.replacement ≠ [])

include hmatch hreached hne

theorem insertion_replacement (hbefore : before.escaped = false) :
    escaper.Insertion context whole entry.key entry.replacement rest
      (escaper.outputFrom (state.replace entry) rest) := by
  have hstays := htable.staysInside entry hentry
  have hinert := htable.inert entry hentry hne
  cases hinner : hasInnerBrace entry.replacement with
  | true =>
      have hplace := (mem_plainPlacesFrom_key hstays.1 hstays.2 hnone).1
      obtain ⟨place, hmem, hrest, hcontext⟩ := hreached.places _ hplace
      refine .formula (htable.formula entry hentry hinner) hinert.bracket hstays.1 hmem ?_
        hrest.symm
      rw [BytePlace.insertsFormula, ← hrest, ← hcontext, hescaped, hmatch]
      simpa using hinner
  | false =>
      have hguarded := htable.guarded entry hentry hinner
      refine .guarded hguarded hinert.bracket fun hbrace => ⟨⟨state.replace entry, ?_, rfl, ?_⟩,
        .inl ⟨entry, hentry, rfl, hguarded.endsInBrace hbrace⟩⟩
      · have hknows := State.Knows.replace state
          (pushAll_of_isOrdinary hstays.1 (htable.ordinary entry hentry)) hinert hbefore
        rwa [hguarded.pushAll_eq hbrace] at hknows
      · exact hreached.trans (.key hstays.1 hstays.2 hnone)

theorem insertion_separated (hbegins : EscapePass.beginsWithDollar entry.replacement = true) :
    escaper.Insertion context whole [] dollarGuard (entry.key ++ rest)
      (entry.replacement ++ escaper.outputFrom (state.replace entry) rest) := by
  obtain ⟨hnone', hguarded⟩ := isReached_guardedState htable hentry hnone hescaped
  have hstays := htable.staysInside entry hentry
  have hordinary := htable.ordinary entry hentry
  refine .guarded .dollarGuard (by decide)
    fun _ => ⟨⟨guardedState, knows_guardedState, ?_, hreached.trans hguarded⟩, .inr ?_⟩
  · have hreplace : state.replace entry = guardedState.replace entry := by
      rw [State.replace, State.replace, pushAll_of_isOrdinary hstays.1 hordinary,
        pushAll_of_isOrdinary hstays.1 hordinary, List.isEmpty_eq_false_iff.mpr hne]
      rfl
    have hwritten : guardedState.written entry.replacement = entry.replacement := by
      rw [State.written, hbegins]
      rfl
    rw [outputFrom_replace hnone' hmatch rfl hstays.1, hreplace, hwritten]
  · rw [List.head?_append_of_ne_nil _ hne]
    intro hhead
    rw [EscapePass.beginsWithDollar, hhead] at hbegins
    cases hbegins

end Replace

/-! ## The whole output -/

theorem rewritesWhere_inside {opener source' target' : Text} (h : Rewrites before source target)
    (hsuffix : opener ++ (source ++ source') <:+ whole) (hopen : ('{' : UInt8) ∈ opener)
    (hclose : ('}' : UInt8) ∈ opener) (hbrace : ('}' : UInt8) ∈ source')
    (h' : RewritesWhere (escaper.Insertion context whole) (before.pushAll target) source' target') :
    RewritesWhere (escaper.Insertion context whole) before (source ++ source')
      (target ++ target') := by
  induction h generalizing opener with
  | nil => exact h'
  | @copy b before source target _ ih =>
      refine .copy b (@ih (opener ++ [b]) ?_ (List.mem_append_left _ hopen)
        (List.mem_append_left _ hclose) h')
      simpa using hsuffix
  | @replace before key chunk source target hescaped hkey hordinary hinert _ ih =>
      rw [LeftContext.pushAll_append] at h'
      rw [List.append_assoc] at hsuffix ⊢
      rw [List.append_assoc]
      refine .replace hescaped hkey hordinary hinert
        (.inside hinert.bracket hsuffix hopen hclose (List.mem_append_right _ hbrace))
        (@ih (opener ++ key) ?_ (List.mem_append_left _ hopen) (List.mem_append_left _ hclose) h')
      rwa [List.append_assoc]
  | guard hcontext _ ih =>
      subst hcontext
      rw [LeftContext.pushAll_append] at h'
      rw [List.append_assoc]
      exact .guard rfl (.inside (by decide) hsuffix hopen hclose (List.mem_append_right _ hbrace))
        (ih hsuffix hopen hclose h')

theorem rewritesWhere_region {region : Region} (hregion : escaper.Preserves region) {rest : Text}
    (hsuffix : region.body ++ rest <:+ whole)
    (h : RewritesWhere (escaper.Insertion context whole) (before.pushAll region.body) rest target) :
    RewritesWhere (escaper.Insertion context whole) before (region.body ++ rest)
      (escaper.shielded region ++ target) := by
  cases hregion with
  | same hsame =>
      rw [hsame]
      exact .copies region.body h
  | inside name hbody hshielded hinside =>
      rw [hbody, Environment.pushAll_wrap] at h
      rw [hbody, wrap, List.append_assoc, List.append_assoc] at hsuffix ⊢
      rw [hshielded, wrap, List.append_assoc, List.append_assoc]
      have hbraces : ∀ token : DelimiterToken,
          ('{' : UInt8) ∈ token.source ∧ ('}' : UInt8) ∈ token.source := fun token => by
        simp [DelimiterToken.source_eq]
      refine .copies _ ?_
      rw [Environment.pushAll_source]
      refine rewritesWhere_inside hinside hsuffix (hbraces _).1 (hbraces _).2
        (List.mem_append_left _ (hbraces _).2) (.copies _ ?_)
      rwa [Environment.pushAll_source]

/-- The output for a settled text, given that the pass over a whole text gets there. -/
theorem rewritesWhere_outputFrom (htable : escaper.table.ClosesBraces)
    (hregions : escaper.PreservesRegions)
    (hsettled : ∀ place ∈ plainPlacesFrom context whole, place.IsSettled escaper.table)
    (state : State) (text : Text) (written : LeftContext) (h : state.Knows written)
    (hreached : IsReached context whole state.context text) :
    RewritesWhere (escaper.Insertion context whole) written text
      (escaper.outputFrom state text) := by
  -- The invariant is what the pass knows of the context of the bytes that it has written.
  induction state, text using pass_induction htable.staysInside generalizing written with
  | nil state =>
      rw [outputFrom_nil]
      exact .nil _
  | @construct state kind name body rest hbody hfound ih =>
      have hregion : escaper.Preserves ⟨kind, name, body⟩ := by simpa using hregions hfound
      have hrest := ih _ (.pass state hbody) (hreached.trans (.construct hbody hfound))
      rw [outputFrom_construct hbody hfound, State.gap]
      split
      · next hguard =>
          rw [Bool.and_eq_true, beq_iff_eq] at hguard
          obtain ⟨hwritten, hcontext⟩ := h.inserted hguard.1
          rw [hcontext] at hrest
          exact .guard hwritten (insertion_gap hregions h hbody hfound hreached hguard.1 hguard.2)
            (rewritesWhere_region hregion hreached.suffix hrest)
      · rw [List.nil_append]
        refine rewritesWhere_region hregion hreached.suffix ?_
        rwa [LeftContext.pushAll_congr hbody h.escaped]
  | @replace state entry rest hentry hkey hnone hescaped hmatch ih =>
      have hstays := htable.staysInside entry hentry
      have hordinary := htable.ordinary entry hentry
      have hne := replacement_ne_nil hentry htable.staysInside hnone hescaped hmatch
        fun place hplace => (hreached.isSettled hsettled place hplace).kept
      have hinert := htable.inert entry hentry hne
      have hrest : ∀ before : LeftContext, before.escaped = false →
          RewritesWhere (escaper.Insertion context whole) before (entry.key ++ rest)
            (entry.replacement ++ escaper.outputFrom (state.replace entry) rest) :=
        fun before hbefore => .replace hbefore hkey hordinary hinert
          (insertion_replacement htable hentry hnone hescaped hmatch hreached hne hbefore)
          (ih _ (.replace state (pushAll_of_isOrdinary hkey hordinary) hinert hbefore)
            (hreached.trans (.key hkey hstays.2 hnone)))
      have hfree := h.escaped.trans hescaped
      rw [outputFrom_replace hnone hmatch hescaped hkey, State.Knows.written_eq,
        State.Knows.separated, h.last]
      split
      · next hguard =>
          rw [Bool.and_eq_true] at hguard
          exact .guard (LeftContext.eq_mk hfree hguard.2)
            (insertion_separated htable hentry hnone hescaped hmatch hreached hne hguard.1)
            (hrest _ rfl)
      · exact hrest _ hfree
  | @copy state b rest hnone hkey ih =>
      have hhere := (hreached.isSettled hsettled _
        (mem_plainPlacesFrom_self hnone)).dollar
      rw [outputFrom_copy hnone hkey, gap_of_dollar h fun hb => hhere (by rw [hb]; rfl),
        List.nil_append]
      exact .copy b (ih _ rest List.suffix_rfl _ (h.copied_push b)
        (hreached.trans (.plain hnone)))

end Escaper

end LatexIntegrity
