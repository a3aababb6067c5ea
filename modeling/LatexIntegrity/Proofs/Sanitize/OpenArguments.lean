import LatexIntegrity.Proofs.Sanitize.Insertions

/-!
# Arguments that a replacement closes

The braces of a replacement may close an argument that the text leaves open.  A command is
then read in the output where the text has none.  Unless a link is split or a formula torn, it
ends with the replacement, behind which the pass goes on as it would at the head of a text.
-/

namespace LatexIntegrity

open EscapePass (State)

/-! ## Arguments of a text -/

theorem Group.isLeftOpen_of_argument?_eq_none {text : Text}
    (hhead : text.head? = some ('{' : UInt8)) (hnone : Group.argument? text = none) :
    Group.isLeftOpen text = true := by
  have hnot := (Group.argument?_eq_none_iff hhead).mp hnone
  simp [Group.isLeftOpen, hhead, hnot]

theorem Group.prefix_take_of_argument? {before behind : Text} (hnot : ('}' : UInt8) ∉ before)
    {length : Nat} (hlength : Group.argument? (before ++ behind) = some length) :
    before <+: (before ++ behind).take length := by
  obtain ⟨inner, hinner⟩ := Group.flat?_take_eq hlength
  rw [List.prefix_take_iff]
  refine ⟨List.prefix_append _ _, ?_⟩
  by_contra hlt
  rw [List.take_append_of_le_length (by omega)] at hinner
  refine hnot (List.mem_of_mem_take (i := length) ?_)
  rw [hinner]
  exact List.mem_append_right _ List.mem_cons_self

theorem EscapeTable.splits_of_within {table : EscapeTable} {entry : EscapeRule}
    {argument : Text} (hentry : entry ∈ table.entries)
    (hends : endsInBrace entry.replacement = true)
    (hwithin : entry.key ++ [('{' : UInt8)] <:+: argument) : table.splits argument = true :=
  List.any_eq_true.mpr ⟨entry, hentry, by simp [hends, hwithin]⟩

theorem EscapeTable.argument?_eq_none_of_splits {table : EscapeTable} {entry : EscapeRule}
    {before behind : Text} (hentry : entry ∈ table.entries)
    (hends : endsInBrace entry.replacement = true)
    (hnot : ('}' : UInt8) ∉ before ++ entry.key)
    (hsplits : ∀ length,
      Group.argument? (before ++ (entry.key ++ ('{' : UInt8) :: behind)) = some length →
        table.splits ((before ++ (entry.key ++ ('{' : UInt8) :: behind)).take length) = false) :
    Group.argument? (before ++ (entry.key ++ ('{' : UInt8) :: behind)) = none := by
  rw [Option.eq_none_iff_forall_ne_some]
  intro length hlength
  have hsplits := hsplits length hlength
  have hsplit : before ++ (entry.key ++ ('{' : UInt8) :: behind) =
      before ++ (entry.key ++ [('{' : UInt8)]) ++ behind := by simp
  have hnot' : ('}' : UInt8) ∉ before ++ (entry.key ++ [('{' : UInt8)]) := by
    have hne : ('}' : UInt8) ≠ ('{' : UInt8) := by decide
    simpa [hne] using hnot
  rw [hsplit] at hlength hsplits
  rw [splits_of_within hentry hends ((List.suffix_append _ _).isInfix.trans
    (Group.prefix_take_of_argument? hnot' hlength).isInfix)] at hsplits
  cases hsplits

namespace Escaper

variable {escaper : Escaper} {state : State} {written context before : LeftContext}
variable {text whole source target rest : Text}

def ResumesIn (escaper : Escaper) (context : LeftContext) (text target : Text) : Prop :=
  ∃ source, escaper.Resumes context text source target

theorem ResumesIn.of_isReached {other : LeftContext} (h : escaper.ResumesIn other rest target)
    (hreached : IsReached context text other rest) : escaper.ResumesIn context text target := by
  obtain ⟨source, state, hknows, htarget, hrest⟩ := h
  exact ⟨source, state, hknows, htarget, hreached.trans hrest⟩

/-! ## Arguments in the output -/

/-- How an argument of the output ends, where `source` is the text and `rest` is behind it. -/
inductive ArgumentEnd (escaper : Escaper) (context : LeftContext) (whole source rest : Text) :
    Prop
  | copied {length : Nat} : Group.argument? source = some length →
      RewritesWhere (escaper.Insertion context whole) ⟨false, false⟩ (source.drop length) rest →
        ArgumentEnd escaper context whole source rest
  | resumed {first key behind : Text} : source = first ++ (key ++ behind) →
      ('}' : UInt8) ∉ first ++ key → escaper.Resumes context whole behind rest →
        ((∃ entry ∈ escaper.table.entries, entry.key = key ∧
          endsInBrace entry.replacement = true) ∨ rest.head? ≠ some ('{' : UInt8)) →
            ArgumentEnd escaper context whole source rest
  | torn {place : BytePlace} : place ∈ plainPlacesFrom context whole →
      place.insertsFormula escaper.table = true → rest.head? ≠ some ('{' : UInt8) →
        ArgumentEnd escaper context whole source rest
  | inside {opener first key behind : Text} : source = first ++ (key ++ behind) →
      ('}' : UInt8) ∉ first ++ key → opener ++ (key ++ behind) <:+ whole →
        ('}' : UInt8) ∈ opener → ('}' : UInt8) ∈ behind →
          ArgumentEnd escaper context whole source rest

theorem argumentEnd (h : RewritesWhere (escaper.Insertion context whole) before source target)
    (hdollar : before.dollar = false) {length : Nat}
    (hlength : Group.argument? target = some length) :
    escaper.ArgumentEnd context whole source (target.drop length) := by
  obtain ⟨rest, rfl⟩ := List.head?_eq_some_iff.mp (Group.head?_of_flat?_eq_some hlength)
  obtain ⟨rest', rfl, hrest⟩ := h.cons_target hdollar (by decide)
  obtain ⟨index, hindex, rfl⟩ := Option.map_eq_some_iff.mp hlength
  cases hrest.firstByte (by decide) hindex with
  | @copied index' before hindex' hbehind =>
      refine @ArgumentEnd.copied _ _ _ _ _ (index' + 2) ?_ hbehind
      rw [Group.argument?_cons, hindex']
      rfl
  | @inserted first key chunk behind source' target' hinsertion hsource hnot hsuffix htarget =>
      have hmem := hsuffix.subset List.mem_cons_self
      have hdrop : (('{' : UInt8) :: rest).drop (index + 2) = behind ++ target' := by
        rw [List.drop_succ_cons, ← List.drop_drop, htarget]
        rfl
      have hsource' : ('{' : UInt8) :: rest' = ('{' : UInt8) :: first ++ (key ++ source') := by
        rw [hsource]
        rfl
      have hnot' : ('}' : UInt8) ∉ ('{' : UInt8) :: first ++ key := by
        rw [List.cons_append, List.mem_cons, not_or]
        exact ⟨by decide, hnot⟩
      rw [hdrop]
      cases hinsertion with
      | guarded hguarded _ hresumes =>
          obtain rfl := hguarded.eq_of_closer hsuffix
          obtain ⟨hresumes, hkey⟩ := hresumes hmem
          exact .resumed hsource' hnot' hresumes hkey
      | formula hformula _ _ hplace hinserts =>
          refine .torn hplace hinserts ?_
          have hcloser := hformula.closer _ ((List.mem_tails _ _).mpr hsuffix) rfl
          cases behind with
          | nil => cases hcloser
          | cons b behind => simpa using hcloser
      | inside _ hwhole _ hclose hbrace => exact .inside hsource' hnot' hwhole hclose hbrace

theorem resumesIn_of_argument?
    (h : RewritesWhere (escaper.Insertion context whole) before source target)
    (hdollar : before.dollar = false) (hnone : Group.argument? source = none)
    (hopen : Group.isLeftOpen source = true →
      ∀ place ∈ plainPlacesFrom context whole, place.insertsFormula escaper.table = false)
    {length : Nat} (hlength : Group.argument? target = some length) :
    escaper.ResumesIn context whole (target.drop length) := by
  have hhead := h.rewrites.head?_target hdollar (by decide)
    (Group.head?_of_flat?_eq_some hlength)
  cases argumentEnd h hdollar hlength with
  | copied hargument =>
      rw [hnone] at hargument
      cases hargument
  | resumed _ _ hresumes => exact ⟨_, hresumes⟩
  | torn hplace hinserts =>
      rw [hopen (Group.isLeftOpen_of_argument?_eq_none hhead hnone) _ hplace] at hinserts
      cases hinserts
  | inside hsource _ _ _ hbrace =>
      refine absurd ?_ ((Group.argument?_eq_none_iff hhead).mp hnone)
      rw [hsource]
      exact List.mem_append_right _ (List.mem_append_right _ hbrace)

theorem resumesIn_of_link (htable : escaper.table.ClosesBraces)
    (hregions : escaper.PreservesRegions)
    (hsettled : ∀ place ∈ plainPlacesFrom context whole, place.IsSettled escaper.table)
    (h : RewritesWhere (escaper.Insertion context whole) before whole target)
    (hdollar : before.dollar = false)
    (hlink : ∀ length, Group.argument? whole = some length →
      escaper.table.splits (whole.take length) = false)
    (hnone : ∀ length, Group.argument? whole = some length →
      Group.argument? (whole.drop length) = none)
    (hopen : escaper.table.leavesOpen "href" whole = true →
      ∀ place ∈ plainPlacesFrom context whole, place.insertsFormula escaper.table = false)
    {first second : Nat} (hfirst : Group.argument? target = some first)
    (hsecond : Group.argument? (target.drop first) = some second) :
    escaper.ResumesIn context whole (target.drop (first + second)) := by
  have hbrace := Group.head?_of_flat?_eq_some hsecond
  have hopener := h.rewrites.head?_target hdollar (by decide)
    (Group.head?_of_flat?_eq_some hfirst)
  rw [← List.drop_drop]
  cases argumentEnd h hdollar hfirst with
  | @copied length hlength hbehind =>
      refine resumesIn_of_argument? hbehind rfl (hnone length hlength) (fun hleft => hopen ?_)
        hsecond
      rwa [EscapeTable.leavesOpen_href_of_some hlength]
  | torn _ _ hrest => exact absurd hbrace hrest
  | @inside opener before key behind hwhole hnot hsuffix hclose =>
      rw [hwhole] at hsuffix
      have hmem := (List.suffix_append_self_iff.mp hsuffix).subset hclose
      exact absurd (List.mem_append_left _ hmem) hnot
  | @resumed before key behind hwhole hnot hresumes hkey =>
      -- A brace behind the insertion opens the second argument.  If the first one were closed
      -- in the text already, it would hold this brace, and in front of it the key.
      obtain ⟨entry, hentry, rfl, hends⟩ := hkey.resolve_right (not_not.mpr hbrace)
      obtain ⟨state, hknows, htarget, hreached⟩ := hresumes
      have hrest := rewritesWhere_outputFrom htable hregions hsettled state behind _ hknows hreached
      rw [← htarget] at hrest
      have hhead := hrest.rewrites.head?_target rfl (by decide) hbrace
      obtain ⟨others, rfl⟩ := List.head?_eq_some_iff.mp hhead
      have hwithin : entry.key ++ [('{' : UInt8)] <:+: whole :=
        ⟨before, others, by rw [hwhole]; simp⟩
      have hfirst' : Group.argument? whole = none := by
        rw [hwhole] at hlink ⊢
        exact EscapeTable.argument?_eq_none_of_splits hentry hends hnot hlink
      have hleft := Group.isLeftOpen_of_argument?_eq_none hopener hfirst'
      have hbehind : Group.argument? (('{' : UInt8) :: others) = none := by
        rw [Group.argument?_eq_none_iff rfl]
        refine fun hmem => (Group.argument?_eq_none_iff hopener).mp hfirst' ?_
        rw [hwhole]
        exact List.mem_append_right _ (List.mem_append_right _ hmem)
      refine resumesIn_of_argument? hrest rfl hbehind (fun _ => hopen ?_) hsecond
      rw [EscapeTable.leavesOpen_href_of_none hfirst']
      simp [hleft, EscapeTable.splits_of_within hentry hends hwithin]

theorem resumesIn_of_commandArguments? (htable : escaper.table.ClosesBraces)
    (hregions : escaper.PreservesRegions)
    (hsettled : ∀ place ∈ plainPlacesFrom context whole, place.IsSettled escaper.table)
    (h : RewritesWhere (escaper.Insertion context whole) before whole target)
    (hdollar : before.dollar = false) {word : Text}
    (hlink : word = "href" → ∀ length, Group.argument? whole = some length →
      escaper.table.splits (whole.take length) = false)
    (hopen : escaper.table.leavesOpen word whole = true →
      ∀ place ∈ plainPlacesFrom context whole, place.insertsFormula escaper.table = false)
    (hnone : Recognizer.commandArguments? word whole = none) {length : Nat}
    (hlength : Recognizer.commandArguments? word target = some length) :
    escaper.ResumesIn context whole (target.drop length) := by
  rw [Recognizer.commandArguments?_eq] at hnone hlength
  rw [EscapeTable.leavesOpen] at hopen
  split at hlength
  · next hsingle =>
      rw [if_pos hsingle] at hnone hopen
      exact resumesIn_of_argument? h hdollar hnone hopen hlength
  · next hsingle =>
      rw [if_neg hsingle] at hnone hopen
      split at hlength
      · next hcitation =>
          rw [if_pos hcitation] at hnone hopen
          obtain ⟨options, options', argument, behind, rfl, hbehind, hoptions, hrest, hfirst,
            hargument⟩ := h.citationArguments? 2 Insertion.bracket hdollar hnone hlength
          rw [← List.drop_drop]
          refine resumesIn_of_argument? hrest hbehind hfirst (fun hleft => hopen ?_) hargument
          rw [hoptions]
          exact hleft
      · next hcitation =>
          rw [if_neg hcitation] at hnone
          split at hlength
          · next hword =>
              rw [if_pos hword] at hnone
              obtain ⟨first, hfirst, hlength⟩ := Option.bind_eq_some_iff.mp hlength
              obtain ⟨second, hsecond, hlength⟩ := Option.bind_eq_some_iff.mp hlength
              cases hlength
              obtain rfl := beq_iff_eq.mp hword
              refine resumesIn_of_link htable hregions hsettled h hdollar (hlink rfl)
                (fun length hlength => ?_) hopen hfirst hsecond
              rw [hlength] at hnone
              cases hbehind : Group.argument? (whole.drop length) with
              | none => rfl
              | some second' => simp [hbehind] at hnone
          · cases hlength

/-! ## Definitions in the output -/

theorem drop_eq_cons {index : Nat} {c : UInt8} (h : (text.drop index).head? = some c) :
    text.drop index = c :: text.drop (index + 1) := by
  obtain ⟨rest, hrest⟩ := List.head?_eq_some_iff.mp h
  rw [← List.drop_drop, hrest]
  rfl

theorem findIdx?_eq_some_iff_takeWhile {c : UInt8} {index : Nat} :
    text.findIdx? (· == c) = some index ↔
      index = (text.takeWhile (· != c)).length ∧ (text.drop index).head? = some c := by
  induction text generalizing index with
  | nil => simp
  | cons b rest ih =>
      rw [List.findIdx?_cons, List.takeWhile_cons]
      by_cases hb : b = c
      · subst hb
        simp only [beq_self_eq_true, if_true, bne_self_eq_false, Bool.false_eq_true, if_false,
          Option.some.injEq, List.length_nil]
        constructor
        · rintro rfl
          exact ⟨rfl, rfl⟩
        · exact fun h => h.1.symm
      · have hne : (b == c) = false := beq_eq_false_iff_ne.mpr hb
        simp only [hne, bne, Bool.not_false, if_true, Bool.false_eq_true, if_false,
          Option.map_eq_some_iff, List.length_cons]
        constructor
        · rintro ⟨shorter, hshorter, rfl⟩
          obtain ⟨hlength, hhead⟩ := ih.mp hshorter
          exact ⟨congrArg (· + 1) hlength, hhead⟩
        · rintro ⟨rfl, hhead⟩
          exact ⟨_, ih.mpr ⟨rfl, hhead⟩, rfl⟩

theorem resumesIn_of_opener {chunk inner behind source' target' : Text} (h : IsGuarded chunk)
    (hresumes : ('}' : UInt8) ∈ chunk → escaper.Resumes context whole source' target')
    (hsuffix : ('{' : UInt8) :: inner <:+ chunk) {index group : Nat}
    (hdrop : behind.drop index = ('{' : UInt8) :: inner ++ target')
    (hgroup : Group.braced? 1 (behind.drop index) = some group) :
    escaper.ResumesIn context whole (behind.drop (index + group)) := by
  obtain rfl := h.eq_of_opener hsuffix
  have htwo : Group.braced? 1 (('{' : UInt8) :: [('}' : UInt8)] ++ target') = some 2 := by
    rw [List.cons_append, Group.braced?_cons, List.cons_append, Group.closing?_cons (by decide)]
    rfl
  rw [hdrop, htwo] at hgroup
  cases hgroup
  rw [← List.drop_drop, hdrop]
  exact ⟨source', hresumes (hsuffix.subset (by simp))⟩

theorem Insertion.resumesIn {key chunk first inner behind source' target' : Text}
    (h : escaper.Insertion context whole key chunk source' target')
    (hwhole : whole = first ++ (key ++ source')) (hnot : ('{' : UInt8) ∉ first ++ key)
    (hopen : ∀ place ∈ plainPlacesFrom context whole, place.insertsFormula escaper.table = true →
      place.rest.length ≤ (whole.dropWhile (· != ('{' : UInt8))).length)
    (hsuffix : ('{' : UInt8) :: inner <:+ chunk) {index group : Nat}
    (hdrop : behind.drop index = ('{' : UInt8) :: inner ++ target')
    (hgroup : Group.braced? 1 (behind.drop index) = some group) :
    escaper.ResumesIn context whole (behind.drop (index + group)) := by
  cases h with
  | guarded hguarded _ hresumes =>
      exact resumesIn_of_opener hguarded (fun hbrace => (hresumes hbrace).1) hsuffix hdrop hgroup
  | formula _ _ hkey hplace hinserts hrest =>
      have hlength := hopen _ hplace hinserts
      rw [hrest, hwhole, ← List.append_assoc, List.dropWhile_append_of_pos fun b hb =>
        bne_iff_ne.mpr (ne_of_mem_of_not_mem hb hnot), List.length_append] at hlength
      have hshorter := (List.dropWhile_suffix (l := source') (· != ('{' : UInt8))).length_le
      have hpos := List.length_pos_iff.mpr hkey
      omega
  | inside _ hsuffix' hbrace =>
      rw [hwhole] at hsuffix'
      exact absurd (List.mem_append_left _
        ((List.suffix_append_self_iff.mp hsuffix').subset hbrace)) hnot

/-- A replacement that begins with the name of a definition has braces behind the name. -/
theorem Insertion.resumesIn_of_name {key chunk behind source' target' : Text}
    (h : escaper.Insertion context whole key chunk source' target') (hinert : IsInert chunk)
    (hwhole : whole = key ++ source') (htarget : ('\\' : UInt8) :: behind = chunk ++ target')
    (hname : behind.takeWhile Recognizer.isMacroNameByte ≠ []) {group : Nat}
    (hgroup : Group.braced? 1 (behind.drop (Recognizer.definitionHead behind)) = some group) :
    escaper.ResumesIn context whole
      (behind.drop (Recognizer.definitionHead behind + group)) := by
  have hhead : chunk.head? = some ('\\' : UInt8) := by
    rw [← List.head?_append_of_ne_nil chunk hinert.ne_nil, ← htarget]
    rfl
  cases h with
  | formula hformula =>
      rw [hformula.head] at hhead
      cases hhead
  | inside _ hsuffix hbrace =>
      rw [hwhole, ← List.nil_append (key ++ source')] at hsuffix
      have hnil := List.suffix_append_self_iff.mp hsuffix
      exact absurd (hnil.subset hbrace) List.not_mem_nil
  | guarded hguarded _ hresumes =>
      obtain ⟨others, rfl⟩ := List.head?_eq_some_iff.mp hhead
      obtain rfl := (List.cons.inj htarget).2
      have hmem : ('{' : UInt8) ∈ others := by
        refine List.mem_of_ne_of_mem (by decide) (hguarded.name rfl ?_)
        cases others with
        | nil => exact absurd (hinert.settled false) (by decide)
        | cons b others =>
            by_contra hb
            exact hname (List.takeWhile_cons_of_neg (by simpa using hb))
      obtain ⟨head, inner, rfl, hnot⟩ := List.eq_append_cons_of_mem hmem
      have hsplit : (head ++ ('{' : UInt8) :: inner).append target' =
          head ++ ('{' : UInt8) :: (inner ++ target') := by simp
      rw [hsplit] at hgroup ⊢
      refine resumesIn_of_opener hguarded (fun hbrace => (hresumes hbrace).1)
        ((List.suffix_append _ _).trans (List.suffix_cons _ _)) ?_ hgroup
      rw [Recognizer.definitionHead_append hnot, List.drop_left]
      rfl

theorem resumesIn_of_definition
    (h : RewritesWhere (escaper.Insertion context whole) ⟨false, false⟩ whole target)
    (hnone : ∀ behind, whole = ('\\' : UInt8) :: behind →
      behind.takeWhile Recognizer.isMacroNameByte ≠ [] →
        Group.braced? 1 (behind.drop (Recognizer.definitionHead behind)) = none)
    (hopen : ∀ behind, whole = ('\\' : UInt8) :: behind →
      behind.takeWhile Recognizer.isMacroNameByte ≠ [] →
        ∀ place ∈ plainPlacesFrom context whole, place.insertsFormula escaper.table = true →
          place.rest.length ≤ (whole.dropWhile (· != ('{' : UInt8))).length)
    {behind : Text} (htarget : target = ('\\' : UInt8) :: behind)
    (hname : behind.takeWhile Recognizer.isMacroNameByte ≠ []) {group : Nat}
    (hgroup : Group.braced? 1 (behind.drop (Recognizer.definitionHead behind)) = some group) :
    escaper.ResumesIn context whole (behind.drop (Recognizer.definitionHead behind + group)) := by
  subst htarget
  generalize hsame : whole = source at h
  generalize htarget : ('\\' : UInt8) :: behind = target at h
  cases h with
  | nil => cases htarget
  | @copy b _ rest _ hrest =>
      cases htarget
      subst hsame
      have hrun := (hrest.rewrites.takeWhile_target rfl
        fun b => Rewrites.isCopyable_of_isMacroNameByte).1
      have hindex := findIdx?_eq_some_iff_takeWhile.mpr
        ⟨Recognizer.definitionHead_eq behind, Group.head?_of_braced?_eq_some hgroup⟩
      cases hrest.firstByte (by decide) hindex with
      | @copied index' before hindex' hbehind =>
          obtain ⟨hlength, hhead⟩ := findIdx?_eq_some_iff_takeWhile.mp hindex'
          have hnot := hnone rest rfl (hrun ▸ hname)
          rw [Recognizer.definitionHead_eq, ← hlength, drop_eq_cons hhead,
            ← Option.not_isSome_iff_eq_none] at hnot
          rw [drop_eq_cons (Group.head?_of_braced?_eq_some hgroup)] at hgroup
          exact absurd (Rewrites.braced?_isSome_of_copied rfl hbehind.rewrites
            (by rw [hgroup]; rfl)) hnot
      | @inserted before key chunk _ source' target' hinsertion hsource hnot hsuffix hdrop =>
          have hwhole : ('\\' : UInt8) :: rest =
              ('\\' : UInt8) :: before ++ (key ++ source') := by
            rw [hsource]
            rfl
          have hnot' : ('{' : UInt8) ∉ ('\\' : UInt8) :: before ++ key := by
            rw [List.cons_append, List.mem_cons, not_or]
            exact ⟨by decide, hnot⟩
          exact hinsertion.resumesIn hwhole hnot' (hopen rest rfl (hrun ▸ hname)) hsuffix hdrop
            hgroup
  | replace _ _ _ hinert hinsertion _ =>
      subst hsame
      exact hinsertion.resumesIn_of_name hinert rfl htarget hname hgroup
  | guard hcontext => cases hcontext

/-! ## Constructs of the output -/

theorem pushAll_of_brace {bytes : Text} (h : ∃ inner, bytes = inner ++ [('}' : UInt8)])
    (context : LeftContext) : context.pushAll bytes = ⟨false, false⟩ := by
  obtain ⟨inner, rfl⟩ := h
  rw [LeftContext.pushAll_append]
  rfl

theorem isReached_afterControlWord (hword : controlWord (('\\' : UInt8) :: rest) ≠ []) :
    IsReached context rest ⟨false, false⟩ (afterControlWord (('\\' : UInt8) :: rest)) := by
  have hsplit := eq_cons_controlWord_append
    (show (('\\' : UInt8) :: rest).head? = some ('\\' : UInt8) from rfl)
  have hletters : ∀ b ∈ controlWord (('\\' : UInt8) :: rest), Ascii.isLetter b = true :=
    fun b => isLetter_of_mem_controlWord
  generalize controlWord (('\\' : UInt8) :: rest) = word at *
  generalize afterControlWord (('\\' : UInt8) :: rest) = behind at *
  obtain rfl := (List.cons.inj hsplit).2
  rw [← @Rewrites.pushAll_of_isCopyable context _ hword
    fun b hb => isCopyable_of_isLetter (hletters b hb)]
  exact .append fun b hb => not_special_of_isLetter (hletters b hb)

section ControlWord

variable (hfree : state.context.escaped = false)
variable (hnone : construct? state.context (('\\' : UInt8) :: rest) = none)
variable (hsettled : ∀ place ∈ plainPlacesFrom state.context (('\\' : UInt8) :: rest),
  place.IsSettled escaper.table)

include hfree hnone hsettled

theorem rewritesWhere_afterControlWord (htable : escaper.table.ClosesBraces)
    (hregions : escaper.PreservesRegions)
    (hword : controlWord (('\\' : UInt8) :: escaper.outputFrom (state.copy '\\') rest) ≠ []) :
    controlWord (('\\' : UInt8) :: escaper.outputFrom (state.copy '\\') rest) =
        controlWord (('\\' : UInt8) :: rest) ∧
      RewritesWhere
        (escaper.Insertion ⟨false, false⟩ (afterControlWord (('\\' : UInt8) :: rest)))
        ⟨false, false⟩ (afterControlWord (('\\' : UInt8) :: rest))
        (afterControlWord (('\\' : UInt8) :: escaper.outputFrom (state.copy '\\') rest)) := by
  have hplaces := (IsReached.plain hnone).isSettled hsettled
  have hrewrites := rewrites_outputFrom htable.toIsInert hregions (state.copy '\\') rest _
    (.copy state '\\') fun place hplace => (hplaces place hplace).kept
  rw [Rewrites.push_backslash hfree] at hrewrites
  have hsame := hrewrites.controlWord.1
  rw [hsame] at hword
  refine ⟨hsame, ?_⟩
  have hbehind := (isReached_afterControlWord hword).isSettled hplaces
  have hsplit := eq_cons_controlWord_append
    (show (('\\' : UInt8) :: rest).head? = some ('\\' : UInt8) from rfl)
  have hletters : ∀ b ∈ controlWord (('\\' : UInt8) :: rest), Ascii.isLetter b = true :=
    fun b => isLetter_of_mem_controlWord
  rw [afterControlWord.eq_def (_ :: escaper.outputFrom _ _), hsame]
  generalize controlWord (('\\' : UInt8) :: rest) = word at *
  generalize afterControlWord (('\\' : UInt8) :: rest) = behind at *
  obtain rfl := (List.cons.inj hsplit).2
  have hcontext : (state.copy '\\').context.pushAll word = ⟨false, false⟩ :=
    Rewrites.pushAll_of_isCopyable hword
      fun b hb => isCopyable_of_isLetter (hletters b hb)
  have hknows := State.Knows.pass (state.copy '\\') hword
  have hreached :
      IsReached ⟨false, false⟩ behind ((state.copy '\\').context.pushAll word) behind := by
    rw [hcontext]
    exact .refl _ _
  rw [hcontext] at hknows
  rw [outputFrom_letters htable.toIsInert _ hword hletters, Nat.add_comm, List.drop_succ_cons,
    List.drop_left]
  exact rewritesWhere_outputFrom htable hregions hbehind _ _ _ hknows hreached

theorem length_le_of_insertsFormula {place : BytePlace}
    (hplace : place ∈ plainPlacesFrom ⟨false, false⟩
      (afterControlWord (('\\' : UInt8) :: rest)))
    (hinserts : place.insertsFormula escaper.table = true) :
    place.rest.length ≤ ((afterControlWord (('\\' : UInt8) :: rest)).drop
      (escaper.table.openLength (controlWord (('\\' : UInt8) :: rest))
        (afterControlWord (('\\' : UInt8) :: rest)))).length := by
  have hformula := (hsettled ⟨state.context, ('\\' : UInt8) :: rest⟩
    (mem_plainPlacesFrom_self hnone)).formula
  rw [BytePlace.tearsFormula, hfree, Bool.not_false, Bool.true_and] at hformula
  have htorn := List.any_eq_false.mp hformula place hplace
  simpa [hinserts] using htorn

theorem insertsFormula_eq_false_of_leavesOpen (htable : escaper.table.StaysInside)
    (hopen : escaper.table.leavesOpen (controlWord (('\\' : UInt8) :: rest))
      (afterControlWord (('\\' : UInt8) :: rest)) = true) :
    ∀ place ∈ plainPlacesFrom ⟨false, false⟩ (afterControlWord (('\\' : UInt8) :: rest)),
      place.insertsFormula escaper.table = false := by
  intro place hplace
  by_contra hinserts
  rw [Bool.not_eq_false] at hinserts
  have hlength := length_le_of_insertsFormula hfree hnone hsettled hplace hinserts
  rw [EscapeTable.openLength, if_pos hopen, List.drop_length, List.length_nil] at hlength
  have hne := place.rest_ne_nil_of_insertsFormula htable hinserts
  exact absurd (Nat.le_zero.mp hlength) (by simpa using hne)

theorem resumesIn_behind_definition (htable : escaper.table.ClosesBraces)
    (hregions : escaper.PreservesRegions) {found : Construct}
    (hfound : Recognizer.definition written
      (('\\' : UInt8) :: escaper.outputFrom (state.copy '\\') rest) = some found) :
    escaper.ResumesIn (state.context.push '\\') rest
      ((('\\' : UInt8) :: escaper.outputFrom (state.copy '\\') rest).drop found.length) := by
  obtain ⟨-, hword, behind, group, hafter, hname, hgroup, rfl⟩ :=
    Recognizer.definition_eq_some_iff.mp hfound
  obtain ⟨hsame, hbehind⟩ := rewritesWhere_afterControlWord hfree hnone hsettled htable hregions
    (by rw [hword]; decide)
  have hdefinition : Recognizer.definition state.context (('\\' : UInt8) :: rest) = none :=
    construct?_eq_none_iff.mp hnone (.definition, Recognizer.definition)
      (by simp [Recognizer.table])
  have hresumes := resumesIn_of_definition hbehind (fun behind' hafter' hname' => by
    cases hgroup' : Group.braced? 1 (behind'.drop (Recognizer.definitionHead behind')) with
    | none => rfl
    | some group' =>
        rw [Recognizer.definition_eq_some_iff.mpr ⟨hfree, hsame.symm.trans hword, behind', group',
          hafter', hname', hgroup', rfl⟩] at hdefinition
        cases hdefinition) (fun behind' hafter' hname' place hplace hinserts => by
    have hlength := length_le_of_insertsFormula hfree hnone hsettled hplace hinserts
    rw [← hsame, hword, hafter', EscapeTable.openLength_definition hname'] at hlength
    rwa [drop_length_takeWhile, ← hafter'] at hlength) hafter hname hgroup
  have hreached := @isReached_afterControlWord (state.context.push '\\') rest
    (by rw [← hsame, hword]; decide)
  have hdef : (Text.ofString "def").length = 3 := by decide
  rw [afterControlWord, hword, hdef] at hafter
  rw [show 5 + Recognizer.definitionHead behind + group =
    1 + 3 + (Recognizer.definitionHead behind + group + 1) by omega, ← List.drop_drop, hafter,
    List.drop_succ_cons]
  exact hresumes.of_isReached hreached

theorem resumesIn_behind_command (htable : escaper.table.ClosesBraces)
    (hregions : escaper.PreservesRegions) {found : Construct}
    (hfound : Recognizer.command written
      (('\\' : UInt8) :: escaper.outputFrom (state.copy '\\') rest) = some found) :
    escaper.ResumesIn (state.context.push '\\') rest
      ((('\\' : UInt8) :: escaper.outputFrom (state.copy '\\') rest).drop found.length) := by
  obtain ⟨-, hword, arguments, harguments, rfl⟩ := Recognizer.command_eq_some_iff.mp hfound
  obtain ⟨hsame, hbehind⟩ :=
    rewritesWhere_afterControlWord hfree hnone hsettled htable hregions hword
  have hcommand : Recognizer.command state.context (('\\' : UInt8) :: rest) = none :=
    construct?_eq_none_iff.mp hnone (.command, Recognizer.command) (by simp [Recognizer.table])
  rw [hsame] at harguments hword
  have hopen := Recognizer.commandArguments?_eq_none_of_command hfree hword hcommand
  have hreached := @isReached_afterControlWord (state.context.push '\\') rest hword
  have hlink := (hsettled ⟨state.context, ('\\' : UInt8) :: rest⟩
    (mem_plainPlacesFrom_self hnone)).link
  have hresumes := resumesIn_of_commandArguments? htable hregions
    (hreached.isSettled ((IsReached.plain hnone).isSettled hsettled)) hbehind rfl
    (fun hhref length hlength => by
      simpa [BytePlace.splitsLink, hfree, hhref, hlength] using hlink)
    (insertsFormula_eq_false_of_leavesOpen hfree hnone hsettled htable.staysInside) hopen harguments
  rw [← List.drop_drop]
  exact hresumes.of_isReached hreached

end ControlWord

/-- A construct that the output has and the text has not ends where the pass goes on. -/
theorem resumesIn_behind_construct (htable : escaper.table.ClosesBraces)
    (hregions : escaper.PreservesRegions) (h : state.Knows written) {b : UInt8}
    (hnone : construct? state.context (b :: rest) = none)
    (hsettled : ∀ place ∈ plainPlacesFrom state.context (b :: rest),
      place.IsSettled escaper.table) {kind : RegionKind} {found : Construct}
    (hfound : construct? written (b :: escaper.outputFrom (state.copy b) rest) =
      some (kind, found)) :
    kind ≠ .environment ∧
      escaper.ResumesIn (state.context.push b) rest
        ((b :: escaper.outputFrom (state.copy b) rest).drop found.length) ∧
      written.pushAll ((b :: escaper.outputFrom (state.copy b) rest).take found.length) =
        ⟨false, false⟩ := by
  have hplaces := (IsReached.plain hnone).isSettled hsettled
  have hhere := hsettled ⟨state.context, b :: rest⟩
    (mem_plainPlacesFrom_self hnone)
  have hrewrites := rewrites_outputFrom htable.toIsInert hregions (state.copy b) rest _
    (h.copied_push b) fun place hplace => (hplaces place hplace).kept
  obtain ⟨rfl, hwritten, hnew⟩ := hrewrites.definition_or_command h.escaped.symm
    (fun hb => h.escaped.trans (hhere.dollar (by rw [hb]; rfl))) hnone hfound
  have hfree := h.escaped.symm.trans hwritten
  rcases hnew with ⟨rfl, hdefinition⟩ | ⟨rfl, hcommand⟩
  · exact ⟨nofun, resumesIn_behind_definition hfree hnone hsettled htable hregions hdefinition,
      pushAll_of_brace (Recognizer.definition_take_eq hdefinition) _⟩
  · exact ⟨nofun, resumesIn_behind_command hfree hnone hsettled htable hregions hcommand,
      pushAll_of_brace (Recognizer.command_take_eq hcommand) _⟩

end Escaper

end LatexIntegrity
