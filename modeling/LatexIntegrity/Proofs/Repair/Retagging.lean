import LatexIntegrity.Proofs.Markup.Tokens
import LatexIntegrity.Proofs.Repair.Tags
import LatexIntegrity.Proofs.Rewriting.Groups
import LatexIntegrity.Proofs.Sanitize.Replacement

/-!
# Texts whose tags are replaced

Where tags are replaced, the bytes around them are copied.  If no control sequence goes on
behind a replacement that did not go on behind the tag, then no backslash of the text begins
a construct that it did not begin before.
-/

namespace LatexIntegrity.Repair

variable {context : LeftContext} {before behind source target : Text}

/-! ## Calm texts -/

/-- Dollar signs apart, no construct begins in the bytes of `run`, where `rest` follows them. -/
def IsCalm (context : LeftContext) (run rest : Text) : Prop :=
  match run with
  | [] => True
  | b :: others =>
      (b ≠ '$' → construct? context (b :: (others ++ rest)) = none) ∧
        IsCalm (context.push b) others rest

namespace IsCalm

variable {first run rest : Text}

theorem append (hfirst : IsCalm context first (run ++ rest))
    (hrun : IsCalm (context.pushAll first) run rest) : IsCalm context (first ++ run) rest := by
  induction first generalizing context with
  | nil => exact hrun
  | cons b others ih =>
      obtain ⟨hhere, hothers⟩ := hfirst
      rw [← List.append_assoc] at hhere
      exact ⟨hhere, ih hothers hrun⟩

theorem drop_append (h : IsCalm context (first ++ run) rest) :
    IsCalm (context.pushAll first) run rest := by
  induction first generalizing context with
  | nil => exact h
  | cons b others ih => exact ih h.2

end IsCalm

/-! ## What tags are replaced by -/

/-- Text in which no construct but mathematics begins, whatever follows it. -/
def isPlainMarkup : Bool → Text → Bool
  | escaped, [] => !escaped
  | true, _ :: rest => isPlainMarkup false rest
  | false, b :: rest =>
      if b == '\\' then isPlainEscape (b :: rest) && isPlainMarkup true rest
      else b != '%' && isPlainMarkup false rest

theorem isPlainMarkup_of_mem {replacement : Text} (h : replacement ∈ tagReplacements) :
    isPlainMarkup false replacement = true := by
  have hall : ∀ replacement ∈ tagReplacements, isPlainMarkup false replacement = true := by
    decide
  exact hall replacement h

section

variable {escaped : Bool} {chunk : Text}

theorem escaped_pushAll_of_isPlainMarkup (h : isPlainMarkup escaped chunk = true)
    (hcontext : context.escaped = escaped) : (context.pushAll chunk).escaped = false := by
  fun_induction isPlainMarkup escaped chunk generalizing context with
  | case1 => simpa [hcontext] using h
  | case2 b rest ih => exact ih h (by simp [hcontext])
  | case3 b rest hb ih =>
      rw [Bool.and_eq_true] at h
      exact ih h.2 (by simp [hb, hcontext])
  | case4 b rest hb ih =>
      rw [Bool.and_eq_true] at h
      exact ih h.2 (by simp [hb])

theorem isCalm_of_isPlainMarkup (h : isPlainMarkup escaped chunk = true)
    (hcontext : context.escaped = escaped) (rest : Text) : IsCalm context chunk rest := by
  fun_induction isPlainMarkup escaped chunk generalizing context with
  | case1 => trivial
  | case2 b others ih =>
      exact ⟨fun _ => construct?_eq_none_of_escaped hcontext _, ih h (by simp [hcontext])⟩
  | case3 b others hb ih =>
      rw [Bool.and_eq_true] at h
      obtain rfl := beq_iff_eq.mp hb
      exact ⟨fun _ => construct?_eq_none_of_isPlainEscape rfl h.1 rest,
        ih h.2 (by simp [hcontext])⟩
  | case4 b others hb ih =>
      rw [Bool.and_eq_true, bne_iff_ne] at h
      rw [beq_iff_eq] at hb
      exact ⟨fun hdollar => construct?_eq_none_of_head h.1 hdollar hb _, ih h.2 (by simp [hb])⟩

theorem unescapedDistance?_of_isPlainMarkup {closer : Text} (hcloser : IsCloser closer)
    (h : isPlainMarkup escaped chunk = true) (hcontext : context.escaped = escaped)
    (hnone : unescapedDistance? closer (context.pushAll chunk) target = none) :
    unescapedDistance? closer context (chunk ++ target) = none := by
  obtain ⟨tail, htail, -⟩ := hcloser.bytes
  fun_induction isPlainMarkup escaped chunk generalizing context with
  | case1 => exact hnone
  | case2 b others ih =>
      refine unescapedDistance?_cons_eq_none_iff.mpr ⟨?_, ih h (by simp [hcontext]) hnone⟩
      simp [hcontext]
  | case3 b others hb ih =>
      rw [Bool.and_eq_true] at h
      obtain rfl := beq_iff_eq.mp hb
      have hharmless : isHarmlessEscape (('\\' : UInt8) :: others) = true := by
        simp only [isPlainEscape, Bool.and_eq_true] at h
        exact h.1.1.1
      refine unescapedDistance?_cons_eq_none_iff.mpr ⟨?_, ih h.2 (by simp [hcontext]) hnone⟩
      exact fun hstarts => hcloser.unlike rfl hharmless target hstarts.2
  | case4 b others hb ih =>
      rw [Bool.and_eq_true] at h
      refine unescapedDistance?_cons_eq_none_iff.mpr ⟨?_, ih h.2 (by simp [hb]) hnone⟩
      rintro ⟨-, hstarts⟩
      rw [htail] at hstarts
      rw [beq_iff_eq] at hb
      exact hb (List.cons_prefix_cons.mp hstarts).1.symm

end

theorem unescapedDistance?_append_eq_none {token first second : Text}
    (h : unescapedDistance? token context (first ++ second) = none) :
    unescapedDistance? token (context.pushAll first) second = none := by
  induction first generalizing context with
  | nil => exact h
  | cons b rest ih => exact ih (unescapedDistance?_cons_eq_none_iff.mp h).2

/-! ## Control sequences at the end of a text -/

/--
Whether what begins with a backslash and `markup` may go on in the text that follows: with
more letters, with arguments, or within a delimiter.
-/
def continues (markup next : Text) : Bool :=
  if markup.all Ascii.isLetter then
    markup.isEmpty || (markup == "def" && next.head? == some ('\\' : UInt8)) ||
      next.head?.any fun b => Ascii.isLetter b || List.elem b "\x7b[*<"
  else isUnfinishedDelimiter (('\\' : UInt8) :: markup)

def endsInMarkup (before next : Text) : Bool :=
  (List.range before.length).any fun offset =>
    before[offset]? == some ('\\' : UInt8) && !isEscapedAt before offset &&
      continues (before.drop (offset + 1)) next

theorem continues_of_endsInMarkup {first markup next : Text}
    (h : endsInMarkup (first ++ ('\\' : UInt8) :: markup) next = false)
    (hfirst : (LeftContext.after first).escaped = false) : continues markup next = false := by
  have hhere := List.any_eq_false.mp h first.length (by simp)
  simpa [isEscapedAt, hfirst] using hhere

theorem escaped_of_endsInMarkup {next : Text} (h : endsInMarkup before next = false) :
    (LeftContext.after before).escaped = false := by
  rcases before.eq_nil_or_concat with rfl | ⟨first, b, rfl⟩
  · rfl
  · rw [List.concat_eq_append] at h ⊢
    rw [LeftContext.after_concat, LeftContext.push_escaped, ← Bool.not_eq_true]
    intro hescaped
    rw [Bool.and_eq_true, beq_iff_eq, Bool.not_eq_true'] at hescaped
    obtain ⟨rfl, hfirst⟩ := hescaped
    -- A backslash alone can go on with anything.
    have hnot := continues_of_endsInMarkup h hfirst
    simp [continues] at hnot

def IsJoined (token : Text) : Prop :=
  ∀ part b rest, token = part ++ b :: rest → ∀ next : Text, next.head? = some b →
    continues part next = true

theorem isJoined_singleton (b : UInt8) : IsJoined [b] := by
  intro part c rest h next _
  obtain rfl : part = [] := by
    cases part with
    | nil => rfl
    | cons first others => simp at h
  rfl

theorem isJoined_of_letters {word : Text} (h : ∀ b ∈ word, Ascii.isLetter b = true) :
    IsJoined word := by
  rintro part b rest rfl next hnext
  have hpart : part.all Ascii.isLetter = true :=
    List.all_eq_true.mpr fun c hc => h c (List.mem_append_left _ hc)
  have hb : Ascii.isLetter b = true := h b (by simp)
  simp [continues, hpart, hnext, hb]

theorem IsJoined.concat {word : Text} (hword : IsJoined word) {b : UInt8}
    (hb : ∀ next : Text, next.head? = some b → continues word next = true) :
    IsJoined (word ++ [b]) := by
  intro part c rest hsplit next hnext
  rcases List.append_eq_append_iff.mp hsplit with ⟨inner, rfl, hinner⟩ | ⟨inner, rfl, hinner⟩
  · cases inner with
    | nil =>
        obtain rfl := (List.cons.inj hinner).1
        rw [List.append_nil]
        exact hb next hnext
    | cons => simp at hinner
  · cases inner with
    | nil =>
        obtain rfl := (List.cons.inj hinner).1
        rw [List.append_nil] at hb
        exact hb next hnext
    | cons d others =>
        obtain rfl := (List.cons.inj hinner).1
        exact hword part c others rfl next hnext

theorem isJoined_delimiter {token : DelimiterToken} (hname : Environment.IsName token.name) :
    IsJoined (token.side.word ++ token.arguments) := by
  intro part b rest hsplit next hnext
  have hsource : ('\\' : UInt8) :: part ++ b :: rest = token.source := by
    rw [DelimiterToken.source_eq_cons, hsplit]
    rfl
  rw [continues]
  split
  · next hletters =>
      -- The word goes on, or its arguments begin.
      have hb : (Ascii.isLetter b || List.elem b "\x7b[*<") = true := by
        rcases List.append_eq_append_iff.mp hsplit with
          ⟨inner, rfl, hinner⟩ | ⟨inner, hword, hinner⟩
        · cases inner with
          | nil =>
              obtain rfl := (List.cons.inj hinner).1
              decide
          | cons c others =>
              obtain rfl := (List.cons.inj hinner).1
              exact absurd (List.all_eq_true.mp hletters '{' (by simp)) (by decide)
        · cases inner with
          | nil =>
              obtain rfl := (List.cons.inj hinner).1
              decide
          | cons c others =>
              obtain rfl := (List.cons.inj hinner).1
              rw [DelimiterSide.isLetter_of_mem_word (by rw [hword]; simp), Bool.true_or]
      rw [hnext, Option.any_some, hb, Bool.or_true]
  · exact isUnfinishedDelimiter_of_append hname hsource (by simp) (by simp)

/-! ## The relation -/

/--
`Retags behind before source target`: the second text is the first one with tags replaced,
where `before` stands in front of the first one and `behind` follows it.
-/
inductive Retags (behind : Text) : Text → Text → Text → Prop
  | nil (before : Text) : Retags behind before [] []
  | copy (b : UInt8) {before source target : Text} :
      Retags behind (before ++ [b]) source target →
        Retags behind before (b :: source) (b :: target)
  | replace {before tag replacement source target : Text} :
      StartsWithTag tag tag.length → replacement ∈ tagReplacements →
        endsInMarkup before (replacement ++ (source ++ behind)) = false →
          Retags behind (before ++ tag) source target →
            Retags behind before (tag ++ source) (replacement ++ target)

theorem StartsWithTag.exists_cons {tag : Text} (h : StartsWithTag tag tag.length) :
    ∃ rest, tag = ('<' : UInt8) :: rest := by
  have hhead := h.opened
  rw [← List.head?_eq_getElem?] at hhead
  exact List.head?_eq_some_iff.mp hhead

theorem StartsWithTag.getLast? {tag : Text} (h : StartsWithTag tag tag.length) :
    tag.getLast? = some ('>' : UInt8) := by
  rw [List.getLast?_eq_getElem?, h.closed]

theorem StartsWithTag.pushAll {tag : Text} (h : StartsWithTag tag tag.length) :
    context.pushAll tag = ⟨false, false⟩ := by
  obtain ⟨inside, rfl⟩ := List.getLast?_eq_some_iff.mp h.getLast?
  rw [LeftContext.pushAll_append]
  rfl

theorem continues_congr {markup first second : Text} (h : first.head? = second.head?) :
    continues markup first = continues markup second := by
  rw [continues, continues, h]

theorem continues_tag {markup rest : Text} (hmarkup : markup.all Ascii.isLetter = true) :
    continues markup (('<' : UInt8) :: rest) = true := by
  rw [continues, if_pos hmarkup, List.head?_cons, Option.any_some]
  exact Bool.or_eq_true_iff.mpr (.inr (by decide))

namespace Retags

theorem copies (bytes : Text) (h : Retags behind (before ++ bytes) source target) :
    Retags behind before (bytes ++ source) (bytes ++ target) := by
  induction bytes generalizing before with
  | nil => rwa [List.append_nil] at h
  | cons b rest ih =>
      rw [List.append_cons] at h
      exact .copy b (ih h)

theorem append {source' target' : Text} (h : Retags (source' ++ behind) before source target)
    (h' : Retags behind (before ++ source) source' target') :
    Retags behind before (source ++ source') (target ++ target') := by
  induction h with
  | nil before => rwa [List.append_nil] at h'
  | copy b _ ih =>
      rw [List.append_cons] at h'
      exact .copy b (ih h')
  | replace htag hreplacement hends _ ih =>
      rw [← List.append_assoc] at h'
      rw [List.append_assoc, List.append_assoc]
      rw [← List.append_assoc _ source'] at hends
      exact .replace htag hreplacement hends (ih h')

theorem head?_eq_or (h : Retags behind before source target) :
    source.head? = target.head? ∨ source.head? = some ('<' : UInt8) := by
  cases h with
  | nil => exact .inl rfl
  | copy => exact .inl rfl
  | replace htag =>
      obtain ⟨rest, rfl⟩ := htag.exists_cons
      exact .inr rfl

theorem escaped_pushAll (h : Retags behind before source target)
    (hcontext : context.escaped = (LeftContext.after before).escaped) :
    (context.pushAll target).escaped = (LeftContext.after (before ++ source)).escaped := by
  induction h generalizing context with
  | nil => rwa [List.append_nil]
  | copy b _ ih =>
      rw [List.append_cons]
      exact ih (by rw [LeftContext.after_append]; simp [hcontext])
  | replace htag hreplacement hends _ ih =>
      rw [LeftContext.pushAll_append, ← List.append_assoc]
      apply ih
      rw [escaped_pushAll_of_isPlainMarkup (isPlainMarkup_of_mem hreplacement)
        (hcontext.trans (escaped_of_endsInMarkup hends)), LeftContext.after_append, htag.pushAll]

theorem target_eq_nil (h : Retags behind before [] target) : target = [] := by
  generalize hsource : ([] : Text) = source at h
  cases h with
  | nil => rfl
  | copy => cases hsource
  | replace htag =>
      obtain ⟨rest, rfl⟩ := htag.exists_cons
      cases hsource

theorem getLast?_eq_dollar (h : Retags behind before source target)
    (hlast : source.getLast? = some ('$' : UInt8)) : target.getLast? = some ('$' : UInt8) := by
  induction h with
  | nil => exact hlast
  | @copy b before source target hrest ih =>
      cases hsource : source.getLast? with
      | none =>
          obtain rfl := List.getLast?_eq_none_iff.mp hsource
          rwa [hrest.target_eq_nil]
      | some last =>
          rw [List.getLast?_cons, hsource, Option.getD_some] at hlast
          rw [List.getLast?_cons, ih (hsource.trans hlast)]
          rfl
  | @replace before tag replacement source target htag _ _ hrest ih =>
      rw [List.getLast?_append] at hlast ⊢
      cases hsource : source.getLast? with
      | none =>
          rw [hsource, Option.none_or, htag.getLast?] at hlast
          exact absurd hlast (by decide)
      | some last =>
          rw [hsource, Option.some_or] at hlast
          rw [ih (hsource.trans hlast), Option.some_or]

/-! ## Control sequences -/

theorem continues_target {markup replacement : Text} (h : Retags behind before source target)
    (hmarkup : continues markup (replacement ++ (source ++ behind)) = false) :
    continues markup (replacement ++ target) = false := by
  cases hletters : markup.all Ascii.isLetter with
  | false =>
      rw [continues, hletters, if_neg Bool.false_ne_true] at hmarkup ⊢
      exact hmarkup
  | true =>
      cases replacement with
      | cons b rest =>
          rw [← hmarkup]
          exact continues_congr rfl
      | nil =>
          simp only [List.nil_append] at hmarkup ⊢
          cases h with
          | nil =>
              rw [continues, if_pos hletters] at hmarkup ⊢
              simp only [Bool.or_eq_false_iff] at hmarkup
              simp [hmarkup.1.1]
          | copy b =>
              rw [← hmarkup]
              exact continues_congr rfl
          | replace htag =>
              obtain ⟨rest, rfl⟩ := htag.exists_cons
              rw [List.cons_append, List.cons_append, continues_tag hletters] at hmarkup
              cases hmarkup

theorem exists_append {part token rest : Text}
    (hbefore : (LeftContext.after before).escaped = false)
    (hjoined : IsJoined (part ++ token))
    (h : Retags behind (before ++ ('\\' : UInt8) :: part) source (token ++ rest)) :
    ∃ source', source = token ++ source' ∧
      Retags behind (before ++ ('\\' : UInt8) :: (part ++ token)) source' rest := by
  induction token generalizing part source with
  | nil =>
      rw [List.append_nil]
      exact ⟨source, rfl, h⟩
  | cons b others ih =>
      generalize htarget : b :: others ++ rest = whole at h
      cases h with
      | nil => cases htarget
      | copy c hrest =>
          cases htarget
          rw [List.append_cons] at hjoined
          rw [List.append_assoc, List.cons_append] at hrest
          obtain ⟨source', rfl, hbehind⟩ := ih hjoined hrest
          rw [← List.append_cons] at hbehind
          exact ⟨source', rfl, hbehind⟩
      | replace _ _ hends hrest =>
          -- The control sequence would go on behind a tag.
          have hnot := hrest.continues_target (continues_of_endsInMarkup hends hbefore)
          rw [hjoined part b others rfl _ (by rw [← htarget]; rfl)] at hnot
          cases hnot

theorem exists_token {token rest : Text} (hbefore : (LeftContext.after before).escaped = false)
    (hjoined : IsJoined token)
    (h : Retags behind (before ++ [('\\' : UInt8)]) source (token ++ rest)) :
    ∃ source', source = token ++ source' ∧
      Retags behind (before ++ ('\\' : UInt8) :: token) source' rest :=
  @exists_append _ _ _ [] _ _ hbefore hjoined h

theorem controlWord_eq (hbefore : (LeftContext.after before).escaped = false)
    (h : Retags behind (before ++ [('\\' : UInt8)]) source target) :
    controlWord (('\\' : UInt8) :: target) = controlWord (('\\' : UInt8) :: source) := by
  have htarget := eq_cons_controlWord_append
    (show (('\\' : UInt8) :: target).head? = some ('\\' : UInt8) from rfl)
  have hletters : ∀ b ∈ controlWord (('\\' : UInt8) :: target), Ascii.isLetter b = true :=
    fun _ => isLetter_of_mem_controlWord
  have hend : ∀ b, (afterControlWord (('\\' : UInt8) :: target)).head? = some b →
      Ascii.isLetter b = false := fun _ => isLetter_head_afterControlWord rfl
  generalize controlWord (('\\' : UInt8) :: target) = word at htarget hletters
  rw [(List.cons.inj htarget).2] at h
  obtain ⟨source', rfl, hbehind⟩ := exists_token hbefore (isJoined_of_letters hletters) h
  refine (controlWord_cons_append hletters fun b hb => ?_).symm
  rcases hbehind.head?_eq_or with hhead | hhead
  · exact hend b (hhead ▸ hb)
  · rw [hhead] at hb
    cases hb
    decide

theorem head?_afterControlWord (hbefore : (LeftContext.after before).escaped = false)
    (h : Retags behind (before ++ [('\\' : UInt8)]) source target) {b : UInt8}
    (hb : ∀ next : Text, next.head? = some b →
      continues (controlWord (('\\' : UInt8) :: source)) next = true)
    (hhead : (afterControlWord (('\\' : UInt8) :: target)).head? = some b) :
    (afterControlWord (('\\' : UInt8) :: source)).head? = some b := by
  have htarget := eq_cons_controlWord_append
    (show (('\\' : UInt8) :: target).head? = some ('\\' : UInt8) from rfl)
  have hletters : ∀ b ∈ controlWord (('\\' : UInt8) :: target), Ascii.isLetter b = true :=
    fun _ => isLetter_of_mem_controlWord
  have hend := isLetter_head_afterControlWord rfl hhead
  rw [← controlWord_eq hbefore h] at hb
  generalize controlWord (('\\' : UInt8) :: target) = word at htarget hletters hb
  obtain ⟨rest, hrest⟩ := List.head?_eq_some_iff.mp hhead
  rw [hrest] at htarget
  rw [(List.cons.inj htarget).2, List.append_cons word b rest] at h
  obtain ⟨source', rfl, -⟩ := exists_token hbefore ((isJoined_of_letters hletters).concat hb) h
  rw [← List.append_cons, afterControlWord_cons_append hletters]
  · rfl
  · intro c hc
    cases hc
    exact hend

/-! ## Closers -/

theorem unescapedDistance?_eq_none {tail : Text} (h : Retags behind before source target)
    (hcloser : IsCloser (('\\' : UInt8) :: tail)) (hjoined : IsJoined tail)
    (hcontext : context.escaped = (LeftContext.after before).escaped)
    (hnone : unescapedDistance? (('\\' : UInt8) :: tail) (.after before) source = none) :
    unescapedDistance? (('\\' : UInt8) :: tail) context target = none := by
  induction h generalizing context with
  | nil => rfl
  | @copy b before source target hrest ih =>
      rw [unescapedDistance?_cons_eq_none_iff] at hnone ⊢
      obtain ⟨hhere, hnone⟩ := hnone
      refine ⟨?_, ih (by rw [LeftContext.after_append]; simp [hcontext])
        (by rw [LeftContext.after_append]; exact hnone)⟩
      rintro ⟨hescaped, hstarts⟩
      rw [hcontext] at hescaped
      obtain ⟨rfl, rest, rfl⟩ := List.cons_prefix_cons.mp hstarts
      obtain ⟨source', rfl, -⟩ := hrest.exists_token hescaped hjoined
      exact hhere ⟨hescaped, List.cons_prefix_cons.mpr ⟨rfl, List.prefix_append _ _⟩⟩
  | @replace before tag replacement source target htag hreplacement hends _ ih =>
      have hescaped := hcontext.trans (escaped_of_endsInMarkup hends)
      have hmarkup := isPlainMarkup_of_mem hreplacement
      apply unescapedDistance?_of_isPlainMarkup hcloser hmarkup hescaped
      apply ih
      · rw [escaped_pushAll_of_isPlainMarkup hmarkup hescaped, LeftContext.after_append,
          htag.pushAll]
      · rw [LeftContext.after_append]
        exact unescapedDistance?_append_eq_none hnone

theorem fenced_eq_none {opener closer : Text} (hopener : IsJoined opener)
    (hcloser : IsCloser (('\\' : UInt8) :: closer)) (hjoined : IsJoined closer)
    (hbefore : (LeftContext.after before).escaped = false)
    (h : Retags behind (before ++ [('\\' : UInt8)]) source target)
    (hnone : Recognizer.fenced (('\\' : UInt8) :: opener) (('\\' : UInt8) :: closer)
      (.after before) (('\\' : UInt8) :: source) = none) :
    Recognizer.fenced (('\\' : UInt8) :: opener) (('\\' : UInt8) :: closer) context
      (('\\' : UInt8) :: target) = none := by
  apply Option.eq_none_iff_forall_ne_some.mpr
  intro construct hfound
  obtain ⟨hescaped, hstarts, distance, hdistance, -⟩ := Recognizer.fenced_eq_some_iff.mp hfound
  obtain ⟨rest, rfl⟩ := (List.cons_prefix_cons.mp hstarts).2
  obtain ⟨source', rfl, hbehind⟩ := h.exists_token hbefore hopener
  rw [← List.cons_append, List.drop_left] at hdistance
  have hcontext : (context.pushAll (('\\' : UInt8) :: opener)).escaped =
      (LeftContext.after (before ++ ('\\' : UInt8) :: opener)).escaped := by
    rw [LeftContext.after_append, LeftContext.pushAll_congr (List.cons_ne_nil _ _)]
    rw [hescaped, hbefore]
  rw [hbehind.unescapedDistance?_eq_none hcloser hjoined hcontext] at hdistance
  · cases hdistance
  · -- The source would be fenced as well.
    apply Option.eq_none_iff_forall_ne_some.mpr
    intro distance' hdistance'
    rw [Recognizer.fenced_eq_some_iff.mpr ⟨hbefore, ?_, distance', ?_, rfl⟩] at hnone
    · cases hnone
    · exact List.cons_prefix_cons.mpr ⟨rfl, List.prefix_append _ _⟩
    · rwa [← List.cons_append, List.drop_left, ← LeftContext.after_append]

end Retags

/-! ## Arguments -/

def argumentOpeners (word : Text) : Text :=
  if Recognizer.isCitationCommand word then "\x7b["
  else if Recognizer.singleArgumentCommands.contains word || word == "href" then "\x7b"
  else if Recognizer.definitionCommands.contains word then "\x7b[*"
  else if word == "def" then "\\"
  else []

def beginsArguments (context : LeftContext) (text : Text) : Bool :=
  !context.escaped &&
    (afterControlWord text).head?.any fun b => List.elem b (argumentOpeners (controlWord text))

theorem beginsArguments_of_opener {text : Text} (hescaped : context.escaped = false) {b : UInt8}
    (hhead : (afterControlWord text).head? = some b) (hb : b ∈ argumentOpeners (controlWord text)) :
    beginsArguments context text = true := by
  rw [beginsArguments, hescaped, hhead, Option.any_some]
  exact List.elem_eq_true_of_mem hb

theorem beginsArguments_of_newCommand {text : Text} {construct : Construct}
    (h : Recognizer.newCommand context text = some construct) :
    beginsArguments context text = true := by
  obtain ⟨hescaped, hword, arguments, harguments, -⟩ := Recognizer.newCommand_eq_some_iff.mp h
  have hopeners : argumentOpeners (controlWord text) = "\x7b[*" := by
    have hall : ∀ word ∈ Recognizer.definitionCommands, argumentOpeners word = "\x7b[*" := by
      decide
    exact hall _ (by simpa using hword)
  by_cases hstar : (afterControlWord text).head? = some ('*' : UInt8)
  · exact beginsArguments_of_opener hescaped hstar (by rw [hopeners]; decide)
  · rw [Recognizer.starLength, if_neg hstar, List.drop_zero] at harguments
    rcases Recognizer.head?_of_definitionArguments?_eq_some harguments with hbrace | hbracket
    · exact beginsArguments_of_opener hescaped hbrace (by rw [hopeners]; decide)
    · exact beginsArguments_of_opener hescaped hbracket (by rw [hopeners]; decide)

theorem beginsArguments_of_definition {text : Text} {construct : Construct}
    (h : Recognizer.definition context text = some construct) :
    beginsArguments context text = true := by
  obtain ⟨hescaped, hword, behind, group, hbehind, -⟩ := Recognizer.definition_eq_some_iff.mp h
  refine @beginsArguments_of_opener _ _ hescaped '\\' (by rw [hbehind]; rfl) ?_
  rw [hword]
  decide

theorem beginsArguments_of_command {text : Text} {construct : Construct}
    (h : Recognizer.command context text = some construct) :
    beginsArguments context text = true := by
  obtain ⟨hescaped, -, arguments, harguments, -⟩ := Recognizer.command_eq_some_iff.mp h
  have hopens : ∀ {b : UInt8}, (afterControlWord text).head? = some b →
      b ∈ argumentOpeners (controlWord text) → beginsArguments context text = true :=
    beginsArguments_of_opener hescaped
  generalize controlWord text = word at harguments hopens
  rw [Recognizer.commandArguments?_eq] at harguments
  split at harguments
  · next hsingle =>
      have hall : ∀ word ∈ Recognizer.singleArgumentCommands, argumentOpeners word = "\x7b" := by
        decide
      apply hopens (Group.head?_of_flat?_eq_some harguments)
      rw [hall word (by simpa using hsingle)]
      decide
  · split at harguments
    · next hcitation =>
        rw [argumentOpeners, if_pos hcitation] at hopens
        rw [Recognizer.citationArguments?_succ] at harguments
        split at harguments
        · next hbracket => exact hopens hbracket (by decide)
        · exact hopens (Group.head?_of_flat?_eq_some harguments) (by decide)
    · split at harguments
      · next hlink =>
          obtain ⟨first, hfirst, -⟩ := Option.bind_eq_some_iff.mp harguments
          apply hopens (Group.head?_of_flat?_eq_some hfirst)
          rw [beq_iff_eq.mp hlink]
          decide
      · cases harguments

theorem continues_of_mem_argumentOpeners {word next : Text}
    (hword : word.all Ascii.isLetter = true) {b : UInt8} (hb : b ∈ argumentOpeners word)
    (hnext : next.head? = some b) : continues word next = true := by
  have hopeners : b ∈ Text.ofString "\x7b[*<" ∨ word = "def" ∧ b = '\\' := by
    have hall : ∀ openers ∈ [Text.ofString "\x7b[", "\x7b", "\x7b[*"], ∀ b ∈ openers,
        b ∈ Text.ofString "\x7b[*<" := by decide +kernel
    rw [argumentOpeners] at hb
    split at hb
    · exact .inl (hall _ (by simp) b hb)
    · split at hb
      · exact .inl (hall _ (by simp) b hb)
      · split at hb
        · exact .inl (hall _ (by simp) b hb)
        · split at hb
          · next hdef => exact .inr ⟨beq_iff_eq.mp hdef, List.mem_singleton.mp hb⟩
          · cases hb
  rw [continues, if_pos hword, hnext, Option.any_some]
  rcases hopeners with hmem | ⟨rfl, rfl⟩
  · rw [List.elem_eq_true_of_mem hmem, Bool.or_true, Bool.or_true]
  · rfl

/-! ## Constructs -/

namespace Retags

section

variable (hbefore : (LeftContext.after before).escaped = false)
variable (h : Retags behind (before ++ [('\\' : UInt8)]) source target)

include hbefore h

theorem beginsArguments_source
    (hopens : beginsArguments context (('\\' : UInt8) :: target) = true) :
    beginsArguments (.after before) (('\\' : UInt8) :: source) = true := by
  rw [beginsArguments, Bool.and_eq_true, Option.any_eq_true] at hopens
  obtain ⟨-, b, hhead, hb⟩ := hopens
  rw [controlWord_eq hbefore h, List.elem_iff] at hb
  refine beginsArguments_of_opener hbefore (h.head?_afterControlWord hbefore ?_ hhead) hb
  intro next hnext
  have hword : (controlWord (('\\' : UInt8) :: source)).all Ascii.isLetter = true :=
    List.all_eq_true.mpr fun _ => isLetter_of_mem_controlWord
  exact continues_of_mem_argumentOpeners hword hb hnext

theorem environment_eq_none
    (hnone : Recognizer.environment (.after before) (('\\' : UInt8) :: source) = none) :
    Recognizer.environment context (('\\' : UInt8) :: target) = none := by
  apply Option.eq_none_iff_forall_ne_some.mpr
  intro construct hfound
  obtain ⟨hshielded, hfenced⟩ := Recognizer.environment_eq_some_iff.mp hfound
  have hname := Recognizer.isName_of_isShieldedEnvironment hshielded
  have hcloser := IsCloser.closing hname
  rw [DelimiterToken.source_eq_cons, DelimiterToken.source_eq_cons] at hfenced
  rw [DelimiterToken.source_eq_cons] at hcloser
  rw [h.fenced_eq_none (isJoined_delimiter hname) hcloser (isJoined_delimiter hname)
    hbefore] at hfenced
  · cases hfenced
  · apply Option.eq_none_iff_forall_ne_some.mpr
    intro found hsource
    obtain ⟨-, -, distance, -, rfl⟩ := Recognizer.fenced_eq_some_iff.mp hsource
    rw [← DelimiterToken.source_eq_cons, ← DelimiterToken.source_eq_cons] at hsource
    rw [Recognizer.environment_of_fenced hshielded hsource] at hnone
    cases hnone

theorem construct?_backslash (hnone : construct? (.after before) (('\\' : UInt8) :: source) = none)
    (hclosed : beginsArguments (.after before) (('\\' : UInt8) :: source) = false) :
    construct? context (('\\' : UInt8) :: target) = none := by
  have hdeclined := construct?_eq_none_iff.mp hnone
  have hother : beginsArguments context (('\\' : UInt8) :: target) ≠ true := by
    intro hopens
    rw [beginsArguments_source hbefore h hopens] at hclosed
    cases hclosed
  have hfence : ∀ {opener closer : UInt8}, List.elem closer "()[]" = true →
      Recognizer.fenced [('\\' : UInt8), opener] [('\\' : UInt8), closer] (.after before)
        (('\\' : UInt8) :: source) = none →
      Recognizer.fenced [('\\' : UInt8), opener] [('\\' : UInt8), closer] context
        (('\\' : UInt8) :: target) = none := by
    intro opener closer hcloser
    exact h.fenced_eq_none (isJoined_singleton _) (IsCloser.bracket hcloser)
      (isJoined_singleton _) hbefore
  apply construct?_eq_none_iff.mpr
  simp only [Recognizer.table, List.forall_mem_cons] at hdeclined ⊢
  obtain ⟨-, -, -, -, -, hround, hsquare, henvironment, -⟩ := hdeclined
  refine ⟨rfl, ?_, ?_, ?_, rfl, hfence (by decide) hround, hfence (by decide) hsquare,
    environment_eq_none hbefore h henvironment, ?_, List.forall_mem_nil _⟩
  · apply Option.eq_none_iff_forall_ne_some.mpr
    exact fun _ hfound => hother (beginsArguments_of_newCommand hfound)
  · apply Option.eq_none_iff_forall_ne_some.mpr
    exact fun _ hfound => hother (beginsArguments_of_definition hfound)
  · rfl
  · apply Option.eq_none_iff_forall_ne_some.mpr
    exact fun _ hfound => hother (beginsArguments_of_command hfound)

end

/-- Dollar signs apart, a byte that is copied begins no construct that it did not begin before. -/
theorem construct?_copy {b : UInt8} (h : Retags behind (before ++ [b]) source target)
    (hcontext : context.escaped = (LeftContext.after before).escaped) (hdollar : b ≠ '$')
    (hnone : construct? (.after before) (b :: source) = none)
    (hclosed : beginsArguments (.after before) (b :: source) = false) :
    construct? context (b :: target) = none := by
  cases hescaped : context.escaped with
  | true => exact construct?_eq_none_of_escaped hescaped _
  | false =>
      by_cases hbackslash : b = '\\'
      · subst hbackslash
        exact construct?_backslash (hcontext.symm.trans hescaped) h hnone hclosed
      · by_cases hpercent : b = '%'
        · subst hpercent
          have hcomment := construct?_eq_none_iff.mp hnone _ List.mem_cons_self
          simp [Recognizer.comment, ← hcontext, hescaped] at hcomment
        · exact construct?_eq_none_of_head hpercent hdollar hbackslash _

theorem isCalm {source' target' : Text} (h : Retags (source' ++ behind) before source target)
    (h' : Retags behind (before ++ source) source' target')
    (hplain : IsPlainRun (.after before) source source')
    (hclosed : ∀ first b second, source = first ++ b :: second →
      beginsArguments (.after (before ++ first)) (b :: (second ++ source')) = false)
    (hcontext : context.escaped = (LeftContext.after before).escaped) :
    IsCalm context target target' := by
  induction h generalizing context with
  | nil => trivial
  | @copy b before source target hrest ih =>
      rw [List.append_cons] at h'
      refine ⟨fun hdollar => ?_, ih h' ?_ ?_ ?_⟩
      · have hhere := hclosed [] b source rfl
        rw [List.append_nil] at hhere
        exact (hrest.append h').construct?_copy hcontext hdollar
          (hplain.head (List.cons_ne_nil b source)) hhere
      · rw [LeftContext.after_append]
        exact hplain.tail
      · rintro first c second rfl
        rw [← List.append_cons]
        exact hclosed (b :: first) c second rfl
      · rw [LeftContext.after_append]
        simp [hcontext]
  | @replace before tag replacement source target htag hreplacement hends _ ih =>
      have hescaped := hcontext.trans (escaped_of_endsInMarkup hends)
      have hmarkup := isPlainMarkup_of_mem hreplacement
      rw [← List.append_assoc] at h'
      refine (isCalm_of_isPlainMarkup hmarkup hescaped _).append (ih h' ?_ ?_ ?_)
      · rw [LeftContext.after_append]
        exact hplain.behind
      · rintro first c second rfl
        rw [List.append_assoc]
        exact hclosed (tag ++ first) c second (List.append_assoc _ _ _).symm
      · rw [escaped_pushAll_of_isPlainMarkup hmarkup hescaped, LeftContext.after_append,
          htag.pushAll]

end Retags

end LatexIntegrity.Repair
