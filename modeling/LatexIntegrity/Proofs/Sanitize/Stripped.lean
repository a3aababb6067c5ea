import LatexIntegrity.Proofs.Sanitize.Deletion

/-!
# A text and what is left of it

A text from which deleted keys are taken out is read side by side with the text itself.
Both have the same shielded regions and are escaped to the same output.
-/

namespace LatexIntegrity

open EscapePass (State)

/--
`Strips table context source context' target`: the rest `target`, behind `context'`, is
left of the rest `source` of the text, behind `context`.
-/
inductive Strips (table : EscapeTable) : LeftContext → Text → LeftContext → Text → Prop
  | nil (context context' : LeftContext) : Strips table context [] context' []
  | shielded {context context' : LeftContext} {kind : RegionKind}
      {name body source target : Text} : body ≠ [] →
      construct? context (body ++ source) = some (kind, ⟨body.length, name⟩) →
        construct? context' (body ++ target) = some (kind, ⟨body.length, name⟩) →
          Strips table (context.pushAll body) source (context'.pushAll body) target →
            Strips table context (body ++ source) context' (body ++ target)
  | delete {context context' : LeftContext} {entry : EscapeRule} {source target : Text} :
      entry ∈ table.entries → entry.replacement = [] → context.escaped = false →
        construct? context (entry.key ++ source) = none →
          Strips table (context.pushAll entry.key) source context' target →
            Strips table context (entry.key ++ source) context' target
  | replace {context context' : LeftContext} {entry : EscapeRule} {source target : Text} :
      entry ∈ table.entries → entry.replacement ≠ [] → context.escaped = false →
        context'.escaped = false → construct? context (entry.key ++ source) = none →
          construct? context' (entry.key ++ target) = none →
            Strips table (context.pushAll entry.key) source
              (context'.pushAll entry.key) target →
                Strips table context (entry.key ++ source) context' (entry.key ++ target)
  | copy {context context' : LeftContext} {b : UInt8} {source target : Text} :
      context'.escaped = context.escaped →
        (context.escaped = true ∨
          table.match? (b :: source) = none ∧ table.match? (b :: target) = none) →
          construct? context (b :: source) = none → construct? context' (b :: target) = none →
            Strips table (context.push b) source (context'.push b) target →
              Strips table context (b :: source) context' (b :: target)

namespace Strips

variable {table : EscapeTable} {context context' : LeftContext} {source target : Text}

theorem shieldedFrom_eq (htable : table.StaysInside)
    (h : Strips table context source context' target) :
    shieldedFrom context' target = shieldedFrom context source := by
  induction h with
  | nil => rw [shieldedFrom_nil, shieldedFrom_nil]
  | shielded hbody hsource htarget _ ih =>
      rw [shieldedFrom_construct hbody hsource, shieldedFrom_construct hbody htarget, ih]
  | delete hentry _ _ hnone _ ih =>
      obtain ⟨hkey, htail⟩ := htable _ hentry
      rw [shieldedFrom_key hkey htail hnone, ih]
  | replace hentry _ _ _ hnone hnone' _ ih =>
      obtain ⟨hkey, htail⟩ := htable _ hentry
      rw [shieldedFrom_key hkey htail hnone, shieldedFrom_key hkey htail hnone', ih]
  | copy _ _ hnone hnone' _ ih =>
      rw [shieldedFrom_plain hnone, shieldedFrom_plain hnone', ih]

theorem outputFrom_eq {escaper : Escaper} (htable : escaper.table.HasCharacterKeys)
    (h : Strips escaper.table context source context' target) (last : Option UInt8)
    (inserted : Bool) :
    escaper.outputFrom ⟨context, last, inserted⟩ source =
      escaper.outputFrom ⟨context', last, inserted⟩ target := by
  induction h generalizing last inserted with
  | nil => rw [Escaper.outputFrom_nil, Escaper.outputFrom_nil]
  | shielded hbody hsource htarget _ ih =>
      rw [Escaper.outputFrom_construct hbody hsource, Escaper.outputFrom_construct hbody htarget]
      exact congrArg (_ ++ ·) (congrArg (_ ++ ·) (ih _ _))
  | delete hentry hempty hescaped hnone _ ih =>
      obtain ⟨first, tail, hkey, -⟩ := htable.exists_cons hentry
      rw [Escaper.outputFrom_replace hnone (htable.match?_key hentry _) hescaped
        (by rw [hkey]; exact List.cons_ne_nil first tail), State.replace, hempty]
      exact ih _ _
  | replace hentry _ hescaped hescaped' hnone hnone' _ ih =>
      obtain ⟨first, tail, hkey, -⟩ := htable.exists_cons hentry
      have hne : _ ≠ [] := hkey ▸ List.cons_ne_nil first tail
      rw [Escaper.outputFrom_replace hnone (htable.match?_key hentry _) hescaped hne,
        Escaper.outputFrom_replace hnone' (htable.match?_key hentry _) hescaped' hne]
      exact congrArg (_ ++ ·) (ih _ _)
  | copy hescaped hkey hnone hnone' _ ih =>
      rw [Escaper.outputFrom_copy hnone (hkey.imp_right And.left),
        Escaper.outputFrom_copy hnone' (hkey.imp (hescaped.trans ·) And.right)]
      exact congrArg (_ ++ ·) (congrArg (_ :: ·) (ih _ _))

theorem dollarsAreEscaped (htable : table.IsInert)
    (h : Strips table context source context' target)
    (hsource : ∀ place ∈ plainPlacesFrom context source,
      place.rest.head? = some ('$' : UInt8) → place.context.escaped = true) :
    ∀ place ∈ plainPlacesFrom context' target,
      place.rest.head? = some ('$' : UInt8) → place.context.escaped = true := by
  induction h with
  | nil => simp [plainPlacesFrom]
  | shielded hbody hconstruct hconstruct' _ ih =>
      rw [plainPlacesFrom_construct hbody hconstruct] at hsource
      rw [plainPlacesFrom_construct hbody hconstruct']
      exact ih hsource
  | delete hentry _ _ hnone _ ih =>
      obtain ⟨hkey, htail⟩ := htable.staysInside _ hentry
      have hplaces := (mem_plainPlacesFrom_key hkey htail hnone).2
      exact ih fun place hplace => hsource place (hplaces place hplace)
  | @replace context context' entry source target hentry _ _ _ hnone hnone' _ ih =>
      obtain ⟨hkey, htail⟩ := htable.staysInside _ hentry
      have hplaces := (mem_plainPlacesFrom_key hkey htail hnone).2
      have hrest := ih fun place hplace => hsource place (hplaces place hplace)
      have hordinary := htable.ordinary entry hentry
      obtain ⟨first, tail, hcons⟩ := List.exists_cons_of_ne_nil hkey
      have hdollar : ∀ b ∈ entry.key, b ≠ '$' :=
        fun b hb => ne_of_isOrdinary (hordinary b hb) (by decide)
      intro place hplace hhead
      rw [hcons] at hdollar htail hrest
      rw [hcons, List.cons_append] at hnone' hplace
      rw [plainPlacesFrom_plain hnone'] at hplace
      rcases List.mem_cons.mp hplace with rfl | hplace
      · exact absurd (Option.some.inj hhead) (hdollar first List.mem_cons_self)
      · rcases head?_of_mem_plainPlacesFrom htail hplace with ⟨b, hb, hhead'⟩ | hplace
        · rw [hhead, Option.some.injEq] at hhead'
          exact absurd hhead'.symm (hdollar b (List.mem_cons_of_mem _ hb))
        · exact hrest place hplace hhead
  | copy hescaped _ hnone hnone' _ ih =>
      rw [plainPlacesFrom_plain hnone, List.forall_mem_cons] at hsource
      rw [plainPlacesFrom_plain hnone', List.forall_mem_cons]
      exact ⟨fun hhead => hescaped.trans (hsource.1 hhead), ih hsource.2⟩

theorem isDeleted_eq_false (htable : table.StaysInside) (hcharacters : table.HasCharacterKeys)
    (h : Strips table context source context' target) :
    ∀ place ∈ plainPlacesFrom context' target, place.isDeleted table = false := by
  have hcontinues : ∀ {place : BytePlace} {b : UInt8}, Utf8.isContinuation b = true →
      place.rest.head? = some b → place.isDeleted table = false := by
    intro place b hb hhead
    obtain ⟨rest, hrest⟩ := List.head?_eq_some_iff.mp hhead
    simp [BytePlace.isDeleted, hrest, hcharacters.match?_continuation hb]
  induction h with
  | nil => simp [plainPlacesFrom]
  | shielded hbody _ hconstruct' _ ih =>
      rw [plainPlacesFrom_construct hbody hconstruct']
      exact ih
  | delete _ _ _ _ _ ih => exact ih
  | @replace context context' entry source target hentry hkept _ _ _ hnone' _ ih =>
      obtain ⟨first, tail, hkey, -, htail⟩ := hcharacters.exists_cons hentry
      have hspecial := (htable entry hentry).2
      have hhere : BytePlace.isDeleted table ⟨context', entry.key ++ target⟩ = false := by
        simp [BytePlace.isDeleted, hcharacters.match?_key hentry, hkept]
      rw [hkey] at hspecial hnone' hhere ih ⊢
      rw [List.cons_append] at hnone' hhere ⊢
      rw [plainPlacesFrom_plain hnone', List.forall_mem_cons]
      refine ⟨hhere, fun place hplace => ?_⟩
      rcases head?_of_mem_plainPlacesFrom hspecial hplace with ⟨b, hb, hhead⟩ | hplace
      · exact hcontinues (htail b hb) hhead
      · exact ih place hplace
  | @copy context context' b source target hescaped hkey _ hnone' _ ih =>
      rw [plainPlacesFrom_plain hnone', List.forall_mem_cons]
      refine ⟨?_, ih⟩
      rcases hkey with hfree | ⟨-, hmatch⟩
      · simp [BytePlace.isDeleted, hescaped.trans hfree]
      · simp [BytePlace.isDeleted, hmatch]

/-! ## Characters -/

theorem prefix_append_congr (before : Text)
    (h : ∀ bytes : Text, (∀ b ∈ bytes, Utf8.isContinuation b = true) → bytes <+: target →
      bytes <+: source) (bytes : Text) (hbytes : ∀ b ∈ bytes, Utf8.isContinuation b = true)
    (hstarts : bytes <+: before ++ target) : bytes <+: before ++ source := by
  induction before generalizing bytes with
  | nil => exact h bytes hbytes hstarts
  | cons b before ih =>
      rcases List.prefix_cons_iff.mp hstarts with rfl | ⟨others, rfl, hothers⟩
      · exact List.nil_prefix
      · exact List.cons_prefix_cons.mpr
          ⟨rfl, ih others (fun b hb => hbytes b (List.mem_cons_of_mem _ hb)) hothers⟩

theorem infix_append_congr (before : Text)
    (h : ∀ bytes : Text, (∀ b ∈ bytes, Utf8.isContinuation b = true) → bytes <+: target →
      bytes <+: source) {first : UInt8} {tail : Text}
    (htail : ∀ b ∈ tail, Utf8.isContinuation b = true)
    (hbehind : first :: tail <:+: target → first :: tail <:+: source)
    (hwithin : first :: tail <:+: before ++ target) : first :: tail <:+: before ++ source := by
  induction before with
  | nil => exact hbehind hwithin
  | cons b before ih =>
      rcases List.infix_cons_iff.mp hwithin with hstarts | hwithin
      · obtain ⟨rfl, hrest⟩ := List.cons_prefix_cons.mp hstarts
        exact (List.cons_prefix_cons.mpr
          ⟨rfl, prefix_append_congr before h tail htail hrest⟩).isInfix
      · exact List.infix_cons (ih hwithin)

theorem infix_source (h : Strips table context source context' target)
    (hjoins : table.JoinsCharacters source) {first : UInt8} {tail : Text}
    (htail : ∀ b ∈ tail, Utf8.isContinuation b = true) :
    (∀ bytes : Text, (∀ b ∈ bytes, Utf8.isContinuation b = true) → bytes <+: target →
      bytes <+: source) ∧ (first :: tail <:+: target → first :: tail <:+: source) := by
  induction h with
  | nil => exact ⟨fun _ _ h => h, fun h => h⟩
  | @shielded _ _ _ _ body source target _ _ _ _ ih =>
      obtain ⟨hstarts, hwithin⟩ := ih (hjoins.of_infix (List.suffix_append _ _).isInfix)
      exact ⟨prefix_append_congr body hstarts, infix_append_congr body hstarts htail hwithin⟩
  | @delete _ _ entry source target hentry hempty _ _ _ ih =>
      obtain ⟨hstarts, hwithin⟩ := ih (hjoins.of_infix (List.suffix_append _ _).isInfix)
      refine ⟨fun bytes hbytes htarget => ?_, fun htarget =>
        (hwithin htarget).trans (List.suffix_append _ _).isInfix⟩
      cases bytes with
      | nil => exact List.nil_prefix
      | cons b others =>
          obtain ⟨rest, rfl⟩ := hstarts (b :: others) hbytes htarget
          refine absurd ?_ (hjoins.not_joined hentry hempty (hbytes b List.mem_cons_self))
          exact ⟨[], others ++ rest, by simp⟩
  | @replace _ _ entry source target _ _ _ _ _ _ _ ih =>
      obtain ⟨hstarts, hwithin⟩ := ih (hjoins.of_infix (List.suffix_append _ _).isInfix)
      exact ⟨prefix_append_congr entry.key hstarts,
        infix_append_congr entry.key hstarts htail hwithin⟩
  | @copy _ _ b source target _ _ _ _ _ ih =>
      obtain ⟨hstarts, hwithin⟩ := ih (hjoins.of_infix (List.suffix_cons _ _).isInfix)
      exact ⟨prefix_append_congr [b] hstarts, infix_append_congr [b] hstarts htail hwithin⟩

theorem spares {other : EscapeTable} (hother : other.HasCharacterKeys)
    (h : Strips table context source context' target)
    (hjoins : table.JoinsCharacters source) (hsource : other.Spares source) :
    other.Spares target := by
  intro entry hentry hwithin
  obtain ⟨first, tail, hkey, -, htail⟩ := hother.exists_cons hentry
  rw [hkey] at hwithin
  exact hsource entry hentry (hkey ▸ (h.infix_source hjoins htail).2 hwithin)

/-! ## Regions -/

theorem escaped_pushAll_strip (htable : table.IsInert) (hcharacters : table.HasCharacterKeys)
    (run : Text) (h : context'.escaped = context.escaped) :
    (context'.pushAll (table.strip context run)).escaped = (context.pushAll run).escaped := by
  refine hcharacters.strip_induction (motive := fun context run target =>
    ∀ context' : LeftContext, context'.escaped = context.escaped →
      (context'.pushAll target).escaped = (context.pushAll run).escaped)
    ?_ ?_ ?_ ?_ context run context' h
  · exact fun _ _ h => h
  · intro context entry rest hentry _ hescaped ih context' h
    have hpush : context.pushAll entry.key = ⟨false, false⟩ :=
      pushAll_of_isOrdinary (htable.staysInside entry hentry).1 (htable.ordinary entry hentry)
    rw [LeftContext.pushAll_append]
    exact ih _ (by rw [h, hescaped, hpush])
  · intro context entry rest hentry _ _ ih context' _
    have hpush : ∀ context : LeftContext, context.pushAll entry.key = ⟨false, false⟩ := fun _ =>
      pushAll_of_isOrdinary (htable.staysInside entry hentry).1 (htable.ordinary entry hentry)
    rw [LeftContext.pushAll_append, LeftContext.pushAll_append]
    exact ih _ (by rw [hpush, hpush])
  · intro context b rest _ ih context' h
    exact ih _ (by rw [LeftContext.push_escaped, LeftContext.push_escaped, h])

theorem plainRun (htable : table.IsInert) (hcharacters : table.HasCharacterKeys) (run : Text)
    (hescaped : context'.escaped = context.escaped) (hjoins : table.JoinsCharacters run)
    (hbehind : source ≠ [] → ∃ context, (construct? context source).isSome = true)
    (hbehind' : table.strip context run ≠ [] → target ≠ [] →
      ∃ context, (construct? context target).isSome = true)
    (hrun : IsPlainRun context run source)
    (hrun' : IsPlainRun context' (table.strip context run) target)
    (h : Strips table (context.pushAll run) source
      (context'.pushAll (table.strip context run)) target) :
    Strips table context (run ++ source) context' (table.strip context run ++ target) := by
  -- The induction is on the run; behind a deleted key the two contexts may differ.
  refine hcharacters.strip_induction (motive := fun context run left => ∀ context',
    context'.escaped = context.escaped → table.JoinsCharacters run →
      (left ≠ [] → target ≠ [] → ∃ context, (construct? context target).isSome = true) →
        IsPlainRun context run source → IsPlainRun context' left target →
          Strips table (context.pushAll run) source (context'.pushAll left) target →
            Strips table context (run ++ source) context' (left ++ target))
    ?_ ?_ ?_ ?_ context run context' hescaped hjoins hbehind' hrun hrun' h
  · exact fun _ _ _ _ _ _ _ h => h
  · intro context entry rest hentry hempty hfree ih context' hescaped hjoins hbehind' hrun
      hrun' h
    have hne := (htable.staysInside entry hentry).1
    have hnone := hrun.head (List.append_ne_nil_of_left_ne_nil hne rest)
    rw [List.append_assoc] at hnone ⊢
    rw [LeftContext.pushAll_append] at h
    refine .delete hentry hempty hfree hnone (ih context' ?_
      (hjoins.of_infix (List.suffix_append _ _).isInfix) hbehind' hrun.behind hrun' h)
    rw [pushAll_of_isOrdinary hne (htable.ordinary entry hentry), hescaped, hfree]
  · intro context entry rest hentry hkept hfree ih context' hescaped hjoins hbehind' hrun
      hrun' h
    have hne := (htable.staysInside entry hentry).1
    have hnone := hrun.head (List.append_ne_nil_of_left_ne_nil hne rest)
    have hnone' := hrun'.head (List.append_ne_nil_of_left_ne_nil hne _)
    rw [List.append_assoc] at hnone hnone' ⊢
    rw [List.append_assoc]
    rw [LeftContext.pushAll_append, LeftContext.pushAll_append] at h
    refine .replace hentry hkept hfree (hescaped.trans hfree) hnone hnone' (ih _ ?_
      (hjoins.of_infix (List.suffix_append _ _).isInfix)
      (fun _ => hbehind' (List.append_ne_nil_of_left_ne_nil hne _)) hrun.behind hrun'.behind h)
    rw [pushAll_of_isOrdinary hne (htable.ordinary entry hentry),
      pushAll_of_isOrdinary hne (htable.ordinary entry hentry)]
  · intro context b rest hkey ih context' hescaped hjoins hbehind' hrun hrun' h
    have hnone := hrun.head (List.cons_ne_nil b rest)
    have hnone' := hrun'.head (List.cons_ne_nil b _)
    refine .copy hescaped ?_ hnone hnone' (ih _ ?_
      (hjoins.of_infix (List.suffix_cons _ _).isInfix)
      (fun _ => hbehind' (List.cons_ne_nil b _)) hrun.tail hrun'.tail h)
    · -- Deletion joins no characters, so a byte at which no key began begins none now.
      rcases hkey with hfree | hmatch
      · exact .inl hfree
      · have hleft := @EscapeTable.HasCharacterKeys.match?_strip _ hcharacters (context.push b) b
          rest (hjoins.of_infix (List.suffix_cons b rest).isInfix) hmatch
        have hends := EscapeTable.match?_append htable.staysInside (List.cons_ne_nil b rest) hbehind
        have hends' := EscapeTable.match?_append htable.staysInside
          (List.cons_ne_nil b (table.strip (context.push b) rest))
            (hbehind' (List.cons_ne_nil b _))
        exact .inr ⟨hends.trans hmatch, hends'.trans hleft⟩
    · rw [LeftContext.push_escaped, LeftContext.push_escaped, hescaped]

theorem of_regionsFrom (htable : table.IsInert) (hcharacters : table.HasCharacterKeys)
    (context : LeftContext) (text : Text) {context' : LeftContext} {text' : Text}
    (hescaped : context'.escaped = context.escaped) (hjoins : table.JoinsCharacters text)
    (hregions : regionsFrom context' text' =
      table.stripRegions context (regionsFrom context text)) :
    Strips table context text context' text' := by
  refine regionsFrom_induction (motive := fun context text regions =>
    ∀ context' text', context'.escaped = context.escaped → table.JoinsCharacters text →
      regionsFrom context' text' = table.stripRegions context regions →
        Strips table context text context' text')
    ?_ ?_ ?_ context text context' text' hescaped hjoins hregions
  · intro context context' text' _ _ hregions
    have hnil := flatMap_body_regionsFrom context' text'
    rw [hregions] at hnil
    subst hnil
    exact .nil _ _
  · intro context body rest kind name hbody hfound ih context' text' hescaped hjoins hregions
    have hkind : kind.isShielded = true := by
      simp [RegionKind.isShielded, (construct?_spec hfound).1]
    have hempty : body.isEmpty = false := List.isEmpty_eq_false_iff.mpr hbody
    simp only [EscapeTable.stripRegions, hkind, if_true, hempty, Bool.false_eq_true, if_false]
      at hregions
    obtain ⟨rest', rfl, -, hrest, hfound', -⟩ := regionsFrom_eq_cons hregions
    refine .shielded hbody hfound (hfound' hkind) (ih _ _ ?_
      (hjoins.of_infix (List.suffix_append _ _).isInfix) hrest)
    rw [LeftContext.pushAll_congr hbody hescaped]
  · intro context run rest hrun hplain ih context' text' hescaped hjoins hregions
    have hrest : table.JoinsCharacters rest := hjoins.of_infix (List.suffix_append _ _).isInfix
    have hbehind : rest ≠ [] → ∃ context, (construct? context rest).isSome = true :=
      fun hne => ⟨_, isSome_construct?_behind hplain hne⟩
    have hends := escaped_pushAll_strip htable hcharacters run hescaped
    have hjoins' : table.JoinsCharacters run := hjoins.of_infix (List.prefix_append _ _).isInfix
    -- A run that is deleted as a whole leaves no region behind.
    cases hleft : table.strip context run with
    | nil =>
        have hregions' : regionsFrom context' text' = table.stripRegions (context.pushAll run)
            (regionsFrom (context.pushAll run) rest) := by
          simpa [EscapeTable.stripRegions, RegionKind.isShielded, hleft] using hregions
        rw [hleft] at hends
        have hread := @plainRun table context context' rest text' htable hcharacters run hescaped
          hjoins' hbehind (fun hne => absurd hleft hne) (.of_plainRun hplain)
          (by rw [hleft]; exact .nil) (by rw [hleft]; exact ih _ _ hends hrest hregions')
        rwa [hleft] at hread
    | cons b others =>
        have hregions' : regionsFrom context' text' = ⟨.plain, [], b :: others⟩ ::
            table.stripRegions (context.pushAll run) (regionsFrom (context.pushAll run) rest) := by
          simpa [EscapeTable.stripRegions, RegionKind.isShielded, hleft] using hregions
        obtain ⟨rest', rfl, -, hrest', -, hplain'⟩ := regionsFrom_eq_cons hregions'
        have hplain' : b :: others = LatexIntegrity.plainRun context' (b :: others ++ rest') :=
          hplain' rfl
        have hbehind' : rest' ≠ [] → ∃ context, (construct? context rest').isSome = true :=
          fun hne => ⟨_, isSome_construct?_behind hplain' hne⟩
        rw [hleft] at hends
        have hread := plainRun htable hcharacters run hescaped hjoins' hbehind (fun _ => hbehind')
          (.of_plainRun hplain) (by rw [hleft]; exact .of_plainRun hplain')
          (by rw [hleft]; exact ih _ _ hends hrest hrest')
        rwa [hleft] at hread

end Strips

end LatexIntegrity
