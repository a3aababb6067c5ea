import LatexIntegrity.Proofs.Region.Commands
import LatexIntegrity.Proofs.Sanitize.Known

/-!
# The columns of a table

Sanitizing a table escapes what stands behind its header.  Arguments that follow one
another directly are the header, if their braces are nested in two levels at most.  A gap
or deeper braces end the header, and what is left of the arguments is treated as a cell,
which keeps it only where it holds nothing to escape.
-/

namespace LatexIntegrity

/-! ## The arguments of a table -/

namespace Tabular

/-- White space in front of an argument: spaces, tabs and no more than one line feed. -/
def IsGap (gap : Text) : Prop :=
  (∀ b ∈ gap, b = ' ' ∨ b = '\t' ∨ b = '\n') ∧ gap.count ('\n' : UInt8) ≤ 1

instance (gap : Text) : Decidable (IsGap gap) := inferInstanceAs (Decidable (_ ∧ _))

def IsBalanced (group : Text) : Prop := ∃ limit, Group.IsBraced limit group

section

variable (gap braced : Text → Prop)

def IsArgument (group : Text → Prop) (source : Text) : Prop :=
  ∃ space argument : Text, source = space ++ argument ∧ gap space ∧ group argument

def IsColumns (source : Text) : Prop :=
  ∃ options columns : Text, source = options ++ columns ∧
    (options = [] ∨ IsArgument gap (Group.IsFlat '[' ']') options) ∧
      IsArgument gap braced columns

/-- The arguments of a table: for `tabular*` a width, then options and the columns. -/
def IsHeader (name source : Text) : Prop :=
  if name = "tabular*" then
    ∃ width columns : Text, source = width ++ columns ∧ IsArgument gap braced width ∧
      IsColumns gap braced columns
  else IsColumns gap braced source

end

/-- The arguments follow one another directly, and no brace is deeper than the second level. -/
def IsDirectHeader : Text → Text → Prop := IsHeader (· = []) (Group.IsBraced 2)

section

variable {name source : Text}

theorem argumentsLength_group {left : Nat} {group : Text}
    (h : IsArgument (· = []) (Group.IsBraced 2) group) (rest : Text) :
    argumentsLength (left + 1) (group ++ rest) = group.length + argumentsLength left rest := by
  obtain ⟨space, group, rfl, rfl, hgroup⟩ := h
  rw [List.nil_append, argumentsLength_brace (Nat.succ_ne_zero left)
    (Recognizer.head?_of_isBraced hgroup rest), Group.braced?_append hgroup]
  simp only [List.drop_left, Nat.succ_sub_one]

theorem argumentsLength_columns (h : IsColumns (· = []) (Group.IsBraced 2) source) (rest : Text) :
    argumentsLength 1 (source ++ rest) = source.length := by
  obtain ⟨options, columns, rfl, hoptions, hcolumns⟩ := h
  have hread : argumentsLength 1 (columns ++ rest) = columns.length := by
    rw [argumentsLength_group hcolumns, argumentsLength_zero, Nat.add_zero]
  rcases hoptions with rfl | ⟨space, options, rfl, rfl, hflat⟩
  · exact hread
  · have hhead := Recognizer.head?_of_isFlat hflat (columns ++ rest)
    have hgroup : Group.optional? (options ++ (columns ++ rest)) = some options.length :=
      Group.flat?_append hflat _
    rw [List.nil_append, List.append_assoc, argumentsLength_bracket Nat.one_ne_zero hhead, hgroup]
    simp only [List.drop_left, hread, List.length_append]

theorem argumentsLength_header (h : IsDirectHeader name source) (rest : Text) :
    argumentsLength (braces name) (source ++ rest) = source.length := by
  unfold IsDirectHeader IsHeader at h
  by_cases hname : name = "tabular*"
  · rw [if_pos hname] at h
    obtain ⟨width, columns, rfl, hwidth, hcolumns⟩ := h
    rw [braces, if_pos (beq_iff_eq.mpr hname), List.append_assoc, argumentsLength_group hwidth,
      argumentsLength_columns hcolumns, List.length_append]
  · rw [if_neg hname] at h
    rw [braces, if_neg (by simpa using hname), argumentsLength_columns h]

theorem IsArgument.of_argumentsLength {count : Nat} {group : Text → Prop} {rest : Text}
    (h : IsArgument IsGap group source) (hread : 0 < argumentsLength count (source ++ rest)) :
    group source := by
  obtain ⟨space, argument, rfl, ⟨hspace, -⟩, hgroup⟩ := h
  cases space with
  | nil => exact hgroup
  | cons b others =>
      have hb := hspace b List.mem_cons_self
      rw [List.cons_append, List.cons_append, argumentsLength_other] at hread
      · cases hread
      all_goals
        rw [List.head?_cons]
        rcases hb with rfl | rfl | rfl <;> decide

theorem isBraced_of_argumentsLength {left : Nat} {group rest : Text}
    (h : IsArgument IsGap IsBalanced group)
    (hread : group.length ≤ argumentsLength (left + 1) (group ++ rest)) :
    Group.IsBraced 2 group := by
  have hpos : 0 < group.length := by
    obtain ⟨space, argument, rfl, -, limit, body, rfl, -⟩ := h
    simp only [List.length_append, List.length_cons]
    omega
  obtain ⟨limit, hbalanced⟩ := h.of_argumentsLength (Nat.lt_of_lt_of_le hpos hread)
  have hhead := Recognizer.head?_of_isBraced hbalanced rest
  rw [argumentsLength_brace (Nat.succ_ne_zero left) hhead] at hread
  cases hgroup : Group.braced? 2 (group ++ rest) with
  | none =>
      simp only [hgroup] at hread
      omega
  | some length => exact (Group.braced?_eq_some_of_isBraced hbalanced hgroup).2

theorem isColumns_of_argumentsLength {rest : Text} (h : IsColumns IsGap IsBalanced source)
    (hread : source.length ≤ argumentsLength 1 (source ++ rest)) :
    IsColumns (· = []) (Group.IsBraced 2) source := by
  obtain ⟨options, columns, rfl, hoptions, hcolumns⟩ := h
  have hdirect : columns.length ≤ argumentsLength 1 (columns ++ rest) →
      IsArgument (· = []) (Group.IsBraced 2) columns := by
    intro hread
    exact ⟨[], columns, rfl, rfl, isBraced_of_argumentsLength hcolumns hread⟩
  rw [List.length_append] at hread
  rcases hoptions with rfl | hoptions
  · rw [List.length_nil, Nat.zero_add] at hread
    exact ⟨[], columns, rfl, .inl rfl, hdirect hread⟩
  · have hflat : Group.IsFlat '[' ']' options := by
      rw [List.append_assoc] at hread
      refine hoptions.of_argumentsLength (Nat.lt_of_lt_of_le ?_ hread)
      obtain ⟨space, argument, rfl, -, body, rfl, -⟩ := hoptions
      simp only [List.length_append, List.length_cons]
      omega
    have hhead := Recognizer.head?_of_isFlat hflat (columns ++ rest)
    have hgroup : Group.optional? (options ++ (columns ++ rest)) = some options.length :=
      Group.flat?_append hflat _
    rw [List.append_assoc, argumentsLength_bracket Nat.one_ne_zero hhead, hgroup] at hread
    simp only [List.drop_left] at hread
    exact ⟨options, columns, rfl, .inr ⟨[], options, rfl, rfl, hflat⟩, hdirect (by omega)⟩

theorem isDirectHeader_of_argumentsLength {rest : Text} (h : IsHeader IsGap IsBalanced name source)
    (hread : source.length ≤ argumentsLength (braces name) (source ++ rest)) :
    IsDirectHeader name source := by
  unfold IsDirectHeader IsHeader at *
  by_cases hname : name = "tabular*"
  · rw [if_pos hname] at h ⊢
    obtain ⟨width, columns, rfl, hwidth, hcolumns⟩ := h
    rw [braces, if_pos (beq_iff_eq.mpr hname), List.length_append, List.append_assoc] at hread
    have hdirect : IsArgument (· = []) (Group.IsBraced 2) width :=
      ⟨[], width, rfl, rfl, isBraced_of_argumentsLength hwidth
        (Nat.le_trans (Nat.le_add_right _ _) hread)⟩
    rw [argumentsLength_group hdirect] at hread
    exact ⟨width, columns, rfl, hdirect,
      isColumns_of_argumentsLength hcolumns (Nat.le_of_add_le_add_left hread)⟩
  · rw [if_neg hname] at h ⊢
    rw [braces, if_neg (by simpa using hname)] at hread
    exact isColumns_of_argumentsLength h hread

end

end Tabular

/-! ## What an escape pass copies -/

def HasNoKeyWithin (table : EscapeTable) (length : Nat) (text : Text) : Prop :=
  ∀ place ∈ plainPlaces text, text.length < place.rest.length + length →
    place.context.escaped = true ∨ table.match? place.rest = none

instance (table : EscapeTable) (length : Nat) (text : Text) :
    Decidable (HasNoKeyWithin table length text) :=
  inferInstanceAs (Decidable (∀ place ∈ plainPlaces text, _))

/-- What is written for a key, and what may be put in front of it, begins with another byte. -/
def EscapeTable.ChangesHeads (table : EscapeTable) : Prop :=
  ∀ entry ∈ table.entries, entry.replacement ≠ [] ∧
    entry.replacement.head? ≠ entry.key.head? ∧ EscapePass.separator.head? ≠ entry.key.head?

instance (table : EscapeTable) : Decidable table.ChangesHeads :=
  inferInstanceAs (Decidable (∀ entry ∈ table.entries, _))

theorem length_le_of_mem_plainPlacesFrom {context : LeftContext} {text : Text} {place : BytePlace}
    (h : place ∈ plainPlacesFrom context text) : place.rest.length ≤ text.length := by
  fun_induction plainPlacesFrom context text with
  | case1 => cases h
  | case2 context b rest kind construct hfound ih =>
      have hle := ih h
      rw [List.length_drop] at hle
      rw [List.length_cons]
      omega
  | case3 context b rest hnone ih =>
      rcases List.mem_cons.mp h with rfl | h
      · exact Nat.le_refl _
      · exact Nat.le_succ_of_le (ih h)

theorem hasNoKeyWithin_zero (table : EscapeTable) (text : Text) : HasNoKeyWithin table 0 text := by
  intro place hplace hwithin
  rw [plainPlaces_eq] at hplace
  exact absurd (length_le_of_mem_plainPlacesFrom hplace) (Nat.not_le_of_lt hwithin)

namespace Escaper

open EscapePass (State)

theorem head?_written {table : EscapeTable} (htable : table.ChangesHeads) {entry : EscapeRule}
    (hentry : entry ∈ table.entries) (state : State) (rest : Text) :
    (state.written entry.replacement ++ rest).head? ≠ entry.key.head? := by
  obtain ⟨hne, hreplacement, hseparator⟩ := htable entry hentry
  rw [State.written, List.append_assoc]
  split
  · exact hseparator
  · rwa [List.nil_append, List.head?_append_of_ne_nil _ hne]

theorem take_prefix_outputFrom_iff {escaper : Escaper} (htable : escaper.table.StaysInside)
    (hheads : escaper.table.ChangesHeads)
    (hshielded : ∀ region, escaper.shielded region = region.body) (state : State) (text : Text)
    (hinserted : state.inserted = false) {length : Nat} (hlength : length ≤ text.length) :
    text.take length <+: escaper.outputFrom state text ↔
      ∀ place ∈ plainPlacesFrom state.context text, text.length < place.rest.length + length →
        place.context.escaped = true ∨ escaper.table.match? place.rest = none := by
  induction state, text using pass_induction htable generalizing length with
  | nil state => simp [plainPlacesFrom]
  | @construct state kind name body rest hbody hfound ih =>
      rw [outputFrom_construct hbody hfound, State.gap_of_copied hinserted, List.nil_append,
        hshielded, plainPlacesFrom_construct hbody hfound]
      rcases Nat.le_total length body.length with hshort | hlong
      · -- The beginning ends in the region.
        rw [List.take_append_of_le_length hshort]
        refine iff_of_true ((List.take_prefix _ _).trans (List.prefix_append _ _)) ?_
        intro place hplace hwithin
        have hle := length_le_of_mem_plainPlacesFrom hplace
        rw [List.length_append] at hwithin
        omega
      · obtain ⟨more, rfl⟩ := Nat.exists_eq_add_of_le hlong
        rw [List.length_append] at hlength ⊢
        rw [List.take_length_add_append, List.prefix_append_right_inj,
          ih rfl (Nat.le_of_add_le_add_left hlength)]
        refine forall₂_congr fun place _ => imp_congr_left ?_
        omega
  | @replace state entry rest hentry hkey hnone hescaped hmatch ih =>
      rw [outputFrom_replace hnone hmatch hescaped hkey]
      obtain ⟨b, others, hcons⟩ := List.exists_cons_of_ne_nil hkey
      cases length with
      | zero =>
          refine iff_of_true (List.nil_prefix) fun place hplace hwithin => ?_
          exact absurd (length_le_of_mem_plainPlacesFrom hplace) (Nat.not_le_of_lt hwithin)
      | succ length =>
          refine iff_of_false ?_ ?_
          · rintro ⟨behind, hbehind⟩
            have hhead := head?_written hheads hentry state
              (escaper.outputFrom (state.replace entry) rest)
            rw [← hbehind, hcons] at hhead
            exact hhead rfl
          · intro hkept
            have hhere := (mem_plainPlacesFrom_key hkey (htable entry hentry).2 hnone).1
            rcases hkept _ hhere (Nat.lt_add_of_pos_right (Nat.succ_pos _)) with hfalse | hfalse
            · rw [hescaped] at hfalse
              cases hfalse
            · rw [hmatch] at hfalse
              cases hfalse
  | @copy state b rest hnone hkey ih =>
      rw [outputFrom_copy hnone hkey, State.gap_of_copied hinserted, List.nil_append,
        plainPlacesFrom_plain hnone, List.forall_mem_cons]
      cases length with
      | zero =>
          refine iff_of_true List.nil_prefix ⟨fun _ => hkey, fun place hplace hwithin => ?_⟩
          have hle := length_le_of_mem_plainPlacesFrom hplace
          rw [List.length_cons] at hwithin
          omega
      | succ length =>
          rw [List.take_succ_cons, List.prefix_cons_inj,
            ih (state.copy b) rest List.suffix_rfl rfl (Nat.le_of_succ_le_succ hlength)]
          constructor
          · refine fun hkept => ⟨fun _ => hkey, fun place hplace hwithin => ?_⟩
            rw [List.length_cons] at hwithin
            exact hkept place hplace (by omega)
          · intro hkept place hplace hwithin
            exact hkept.2 place hplace (by rw [List.length_cons]; omega)

end Escaper

/-! ## Sanitized tables -/

namespace Tabular

variable {tables : EscapeTables} {name arguments rest : Text}

/-- The bytes of the arguments that are treated as cells. -/
def unreadLength (name arguments rest : Text) : Nat :=
  arguments.length - Tabular.arguments name (arguments ++ rest)

theorem sanitize_keepsArguments_iff (hname : Environment.IsName name)
    (htable : tables.cells.StaysInside) (hheads : tables.cells.ChangesHeads) :
    (∃ cells, sanitize tables name (Environment.wrap name (arguments ++ rest)) =
        Environment.wrap name (arguments ++ cells)) ↔
      HasNoKeyWithin tables.cells (unreadLength name arguments rest)
        (cells name (Environment.wrap name (arguments ++ rest))) := by
  rw [sanitize_wrap hname htable, cells_wrap hname]
  have hcancel : ∀ inside cells : Text, Environment.wrap name inside =
      Environment.wrap name (arguments ++ cells) ↔ inside = arguments ++ cells := by
    intro inside cells
    rw [Environment.wrap, Environment.wrap, List.append_cancel_left_eq, List.append_cancel_right_eq]
  simp only [hcancel]
  generalize hread : Tabular.arguments name (arguments ++ rest) = read
  have hstarts : ∀ text : Text, (∃ cells, text = arguments ++ cells) ↔ arguments <+: text :=
    fun text => exists_congr fun cells => eq_comm
  rw [hstarts, unreadLength, hread]
  rcases Nat.le_total arguments.length read with hall | hpart
  · -- All of the arguments are read.
    rw [Nat.sub_eq_zero_of_le hall]
    refine iff_of_true ?_ (hasNoKeyWithin_zero _ _)
    obtain ⟨more, rfl⟩ := Nat.exists_eq_add_of_le hall
    rw [List.take_length_add_append, List.append_assoc]
    exact List.prefix_append _ _
  · have hsplit : arguments = arguments.take read ++
        (arguments.drop read ++ rest).take (arguments.length - read) := by
      rw [List.take_left' List.length_drop, List.take_append_drop]
    rw [List.take_append_of_le_length hpart, List.drop_append_of_le_length hpart]
    nth_rewrite 1 [hsplit]
    rw [List.prefix_append_right_inj, HasNoKeyWithin, plainPlaces_eq]
    exact Escaper.take_prefix_outputFrom_iff htable hheads (fun _ => rfl) (.start []) _ rfl
      (by rw [List.length_append, List.length_drop]; omega)

theorem unreadLength_eq_zero_iff (h : IsHeader IsGap IsBalanced name arguments) :
    unreadLength name arguments rest = 0 ↔ IsDirectHeader name arguments := by
  rw [unreadLength, Nat.sub_eq_zero_iff_le, Tabular.arguments, List.append_assoc]
  constructor
  · exact isDirectHeader_of_argumentsLength h
  · intro hdirect
    rw [argumentsLength_header hdirect]

end Tabular

theorem EscapeTables.changesHeads_standardCells : standardCells.ChangesHeads := by decide +kernel

theorem isName_of_isTabular {name : Text} (h : Environment.isTabular name = true) :
    Environment.IsName name := by
  simp only [Environment.isTabular, Bool.or_eq_true, beq_iff_eq] at h
  rcases h with rfl | rfl <;> decide +kernel

/--
A sanitized table begins with its opener and ends with its closer.  Its arguments are kept
exactly if what stands behind the header has no key of the cells in them that would be
replaced.  The arguments are the header, and so are kept, if they follow one another directly
and no brace in them is deeper than the second level.
-/
theorem sanitize_keepsColumns (scope : SanitizeScope) (text : Text) (span : Span)
    (arguments rest : Text) (hspan : span ∈ segment (scope.prepare .standard text))
    (htable : span.isEnvironment Environment.isTabular = true)
    (hsource : span.read (scope.prepare .standard text) =
      Environment.wrap span.name (arguments ++ rest))
    (harguments : Tabular.IsHeader Tabular.IsGap Tabular.IsBalanced span.name arguments) :
    let table := scope.escapeSpan .standard (scope.prepare .standard text) span
    let unread := Tabular.unreadLength span.name arguments rest
    table <:+: sanitize .standard scope text ∧
    (∃ inside, table = Environment.wrap span.name inside) ∧
    ((∃ cells, table = Environment.wrap span.name (arguments ++ cells)) ↔
      HasNoKeyWithin EscapeTables.standardCells unread
        (Tabular.cells span.name (Environment.wrap span.name (arguments ++ rest)))) ∧
    (unread = 0 ↔ Tabular.IsDirectHeader span.name arguments) ∧
    (Tabular.IsDirectHeader span.name arguments →
      ∃ cells, table = Environment.wrap span.name (arguments ++ cells)) := by
  intro table unread
  have hcells := EscapeTables.isKnown_standardCells.staysInside
  have hname : Environment.IsName span.name := by
    rw [Span.isEnvironment, Bool.and_eq_true] at htable
    exact isName_of_isTabular htable.2
  have hsanitized : table = Tabular.sanitize .standard span.name
      (Environment.wrap span.name (arguments ++ rest)) := by
    simp only [table, SanitizeScope.escapeSpan, htable, if_true, hsource]
  have hkept : (∃ cells, table = Environment.wrap span.name (arguments ++ cells)) ↔
      HasNoKeyWithin EscapeTables.standardCells unread
        (Tabular.cells span.name (Environment.wrap span.name (arguments ++ rest))) := by
    rw [hsanitized]
    exact Tabular.sanitize_keepsArguments_iff hname hcells EscapeTables.changesHeads_standardCells
  have hdirect : unread = 0 ↔ Tabular.IsDirectHeader span.name arguments :=
    Tabular.unreadLength_eq_zero_iff harguments
  refine ⟨?_, ?_, hkept, hdirect, fun h => hkept.mpr ?_⟩
  · obtain ⟨before, after, hsplit⟩ := List.append_of_mem hspan
    refine ⟨before.flatMap (scope.escapeSpan .standard (scope.prepare .standard text)),
      after.flatMap (scope.escapeSpan .standard (scope.prepare .standard text)), ?_⟩
    simp only [sanitize, hsplit, List.flatMap_append, List.flatMap_cons, List.append_assoc]
    rfl
  · rw [hsanitized, Tabular.sanitize_wrap hname hcells]
    exact ⟨_, rfl⟩
  · rw [hdirect.mpr h]
    exact hasNoKeyWithin_zero _ _

/-- Behind a gap the columns are cells, and kept, for the bar in them is mathematics. -/
theorem sanitize_keepsColumns_gap :
    let text : Text := "a|b\\begin\x7btabular*\x7d\x7b2cm\x7d\n[t]\x7bc@\x7b$|$\x7dc\x7da|b\\end\x7btabular*\x7d"
    let span : Span := ⟨3, 55, .environment, "tabular*"⟩
    let arguments : Text := "\x7b2cm\x7d\n[t]\x7bc@\x7b$|$\x7dc\x7d"
    let table := SanitizeScope.escapeSpan .onlyTables .standard text span
    span ∈ segment (SanitizeScope.prepare .onlyTables .standard text) ∧
    span.isEnvironment Environment.isTabular = true ∧
    span.read (SanitizeScope.prepare .onlyTables .standard text) =
      Environment.wrap span.name (arguments ++ "a|b") ∧
    Tabular.IsHeader Tabular.IsGap Tabular.IsBalanced span.name arguments ∧
    Tabular.unreadLength span.name arguments "a|b" = 14 ∧
    (∃ cells, table = Environment.wrap span.name (arguments ++ cells)) ∧
    ¬Tabular.IsDirectHeader span.name arguments := by
  intro text span arguments table
  have hspan : span ∈ segment (SanitizeScope.prepare .onlyTables .standard text) := by
    decide +kernel
  have htable : span.isEnvironment Environment.isTabular = true := by decide +kernel
  have hsource : span.read (SanitizeScope.prepare .onlyTables .standard text) =
      Environment.wrap span.name (arguments ++ "a|b") := by decide +kernel
  have hwidth : Tabular.IsArgument Tabular.IsGap Tabular.IsBalanced "\x7b2cm\x7d" :=
    ⟨[], _, rfl, by decide +kernel, 0, Group.isBraced_of_braced?
      (show Group.braced? 0 (Text.ofString "\x7b2cm\x7d") = some 5 by decide +kernel)⟩
  have hcolumns : Tabular.IsArgument Tabular.IsGap Tabular.IsBalanced "\x7bc@\x7b$|$\x7dc\x7d" :=
    ⟨[], _, rfl, by decide +kernel, 1, Group.isBraced_of_braced?
      (show Group.braced? 1 (Text.ofString "\x7bc@\x7b$|$\x7dc\x7d") = some 10 by decide +kernel)⟩
  have harguments : Tabular.IsHeader Tabular.IsGap Tabular.IsBalanced span.name arguments := by
    unfold Tabular.IsHeader
    rw [if_pos rfl]
    refine ⟨_, "\n[t]\x7bc@\x7b$|$\x7dc\x7d", by decide +kernel, hwidth, "\n[t]", _,
      by decide +kernel,
      .inr ⟨"\n", "[t]", by decide +kernel, ⟨by decide +kernel, by decide +kernel⟩, "t",
        by decide +kernel, by decide⟩, hcolumns⟩
  have hunread : Tabular.unreadLength span.name arguments "a|b" = 14 := by decide +kernel
  obtain ⟨-, -, hkept, hdirect, -⟩ :=
    sanitize_keepsColumns .onlyTables text span arguments "a|b" hspan htable hsource harguments
  refine ⟨hspan, htable, hsource, harguments, hunread, hkept.mpr (by decide +kernel), ?_⟩
  rw [← hdirect, hunread]
  decide

/-- A bar behind a gap is escaped. -/
example :
    sanitize .standard .full "\\begin\x7btabular\x7d \x7bc|\x7da\\end\x7btabular\x7d" =
      "\\begin\x7btabular\x7d \x7bc\\textbar\x7b\x7d\x7da\\end\x7btabular\x7d" := by
  decide +kernel

end LatexIntegrity
