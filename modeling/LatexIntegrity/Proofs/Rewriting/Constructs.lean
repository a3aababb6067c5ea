import LatexIntegrity.Proofs.Rewriting.Groups
import LatexIntegrity.Proofs.Region.Precedence

/-!
# Constructs of a rewritten text

A plain byte stays plain under a rewriting, and a construct stays one, except where
the arguments of a command are open: a brace that a rewriting brings could close
them.
-/

namespace LatexIntegrity

namespace Recognizer

theorem definitionHead_eq (text : Text) :
    definitionHead text = (text.takeWhile (· != ('{' : UInt8))).length := by
  have hname : ∀ b ∈ text.takeWhile isMacroNameByte, (b != ('{' : UInt8)) = true := by
    intro b hb
    have hbyte := List.all_eq_true.mp List.all_takeWhile b hb
    rw [bne_iff_ne]
    rintro rfl
    revert hbyte
    decide
  have hsplit := List.takeWhile_append_dropWhile (p := isMacroNameByte) (l := text)
  rw [definitionHead, drop_length_takeWhile]
  conv_rhs => rw [← hsplit, List.takeWhile_append_of_pos hname]
  rw [List.length_append]

theorem definitionHead_append {head : Text} (hhead : ('{' : UInt8) ∉ head) (rest : Text) :
    definitionHead (head ++ ('{' : UInt8) :: rest) = head.length := by
  rw [definitionHead_eq, List.takeWhile_append_of_pos fun b hb =>
    bne_iff_ne.mpr (ne_of_mem_of_not_mem hb hhead)]
  simp

theorem commandArguments?_eq_none_of_command {context : LeftContext} {text : Text}
    (hfree : context.escaped = false) (hword : controlWord text ≠ [])
    (hnone : command context text = none) :
    commandArguments? (controlWord text) (afterControlWord text) = none := by
  cases harguments : commandArguments? (controlWord text) (afterControlWord text) with
  | none => rfl
  | some arguments =>
      rw [command_eq_some_iff.mpr ⟨hfree, hword, arguments, harguments, rfl⟩] at hnone
      cases hnone

/--
Whether a command stands at the head of a text whose arguments in braces have begun.
In plain text these arguments are not complete.
-/
def hasOpenArguments (context : LeftContext) (text : Text) : Bool :=
  let word := controlWord text
  let behind := afterControlWord text
  !context.escaped &&
    if singleArgumentCommands.contains word then behind.head? == some ('{' : UInt8)
    else if isCitationCommand word then
      (optionalArguments? 2 behind).any fun options =>
        (behind.drop options).head? == some ('{' : UInt8)
    else if word == "href" then behind.head? == some ('{' : UInt8)
    else
      word == "def" && behind.head? == some ('\\' : UInt8) &&
        !((behind.drop 1).takeWhile isMacroNameByte).isEmpty

end Recognizer

namespace Rewrites

variable {context : LeftContext} {source target : Text}

def afterBackslash : LeftContext := ⟨true, false⟩

theorem push_backslash (hcontext : context.escaped = false) :
    context.push '\\' = afterBackslash := by
  rw [LeftContext.push, hcontext]
  rfl

theorem isOrdinary_of_isLetter {b : UInt8} (hb : Ascii.isLetter b = true) :
    isOrdinary b = false := by
  rw [isOrdinary, hb]
  rfl

theorem pushAll_of_isCopyable {bytes : Text} (hne : bytes ≠ [])
    (hbytes : ∀ b ∈ bytes, isCopyable b = true) :
    context.pushAll bytes = ⟨false, false⟩ := by
  induction bytes generalizing context with
  | nil => exact absurd rfl hne
  | cons b rest ih =>
      have hb := hbytes b List.mem_cons_self
      cases rest with
      | nil =>
          simp only [isCopyable, Bool.and_eq_true, bne_iff_ne, ne_eq] at hb
          simp [LeftContext.push, hb.1.1, hb.1.2]
      | cons second rest =>
          exact ih (by simp) fun b hb => hbytes b (List.mem_cons_of_mem _ hb)

theorem controlWord (h : Rewrites afterBackslash source target) :
    LatexIntegrity.controlWord (('\\' : UInt8) :: target) =
        LatexIntegrity.controlWord (('\\' : UInt8) :: source) ∧
      (LatexIntegrity.controlWord (('\\' : UInt8) :: source) ≠ [] →
        Rewrites ⟨false, false⟩ (afterControlWord (('\\' : UInt8) :: source))
          (afterControlWord (('\\' : UInt8) :: target))) := by
  have hword : ∀ text : Text, LatexIntegrity.controlWord (('\\' : UInt8) :: text) =
      text.takeWhile Ascii.isLetter := fun text => rfl
  have hletters : ∀ b ∈ source.takeWhile Ascii.isLetter, isCopyable b = true :=
    fun b hb => isCopyable_of_isLetter (List.all_eq_true.mp List.all_takeWhile b hb)
  obtain ⟨hrun, hbehind, -⟩ := h.takeWhile_target rfl fun b hb =>
    ⟨isCopyable_of_isLetter hb, isOrdinary_of_isLetter hb⟩
  refine ⟨by rw [hword, hword, hrun], fun hne => ?_⟩
  rw [hword] at hne
  rw [pushAll_of_isCopyable hne hletters] at hbehind
  rw [afterControlWord, afterControlWord, hword, hword, hrun, Nat.add_comm,
    List.drop_succ_cons, List.drop_succ_cons]
  exact hbehind

/-! ## Plain bytes -/

variable {before : LeftContext}

theorem fenced_eq_none {opener closer : Text} (hcloser : IsCloser closer)
    (hbefore : before.escaped = context.escaped)
    (h : Rewrites (context.pushAll opener) source target)
    (hnone : Recognizer.fenced opener closer before (opener ++ source) = none) :
    Recognizer.fenced opener closer context (opener ++ target) = none := by
  cases hfound : Recognizer.fenced opener closer context (opener ++ target) with
  | none => rfl
  | some construct =>
      obtain ⟨hfree, -, distance, hdistance, -⟩ := Recognizer.fenced_eq_some_iff.mp hfound
      have hopener := (refl context opener).escaped_pushAll hbefore
      rw [List.drop_left] at hdistance
      cases hsource : unescapedDistance? closer (before.pushAll opener) source with
      | none =>
          rw [h.unescapedDistance?_eq_none hcloser hopener hsource] at hdistance
          cases hdistance
      | some distance' =>
          have hfound' := Recognizer.fenced_eq_some_iff.mpr
            ⟨hbefore.trans hfree, List.prefix_append opener source, distance',
              by rwa [List.drop_left], rfl⟩
          rw [hnone] at hfound'
          cases hfound'

theorem starLength (h : Rewrites context source target) (hescaped : context.escaped = false)
    (hdollar : context.dollar = false) :
    Recognizer.starLength target = Recognizer.starLength source ∧
      ∃ behind : LeftContext, behind.escaped = false ∧ behind.dollar = false ∧
        Rewrites behind (source.drop (Recognizer.starLength source))
          (target.drop (Recognizer.starLength source)) := by
  by_cases hstar : target.head? = some ('*' : UInt8)
  · obtain ⟨rest, rfl⟩ := List.head?_eq_some_iff.mp hstar
    obtain ⟨rest', rfl, hrest⟩ := h.cons_target hdollar (by decide)
    exact ⟨rfl, _, rfl, rfl, hrest⟩
  · have hstar' : source.head? ≠ some ('*' : UInt8) :=
      fun hstar' => hstar (h.head?_source hdollar (by decide) hstar')
    rw [Recognizer.starLength, Recognizer.starLength, if_neg hstar, if_neg hstar']
    exact ⟨rfl, context, hescaped, hdollar, h⟩

theorem newCommand_eq_none (h : Rewrites afterBackslash source target)
    (hbefore : before.escaped = false)
    (hnone : Recognizer.newCommand before (('\\' : UInt8) :: source) = none) :
    Recognizer.newCommand context (('\\' : UInt8) :: target) = none := by
  cases hfound : Recognizer.newCommand context (('\\' : UInt8) :: target) with
  | none => rfl
  | some construct =>
      obtain ⟨-, hword, arguments, harguments, -⟩ :=
        Recognizer.newCommand_eq_some_iff.mp hfound
      obtain ⟨hsame, hafter⟩ := h.controlWord
      rw [hsame] at hword
      have hrest := hafter (Recognizer.controlWord_ne_nil_of_mem_definitionCommands hword)
      obtain ⟨hstar, behind, hescaped, hdollar, hbehind⟩ := hrest.starLength rfl rfl
      rw [hstar] at harguments
      cases hsource : Recognizer.definitionArguments?
          ((afterControlWord (('\\' : UInt8) :: source)).drop
            (Recognizer.starLength (afterControlWord (('\\' : UInt8) :: source)))) with
      | none =>
          rw [hbehind.definitionArguments?_eq_none hescaped hdollar hsource] at harguments
          cases harguments
      | some arguments' =>
          have hfound' := Recognizer.newCommand_eq_some_iff.mpr
            ⟨hbefore, hword, arguments', hsource, rfl⟩
          rw [hnone] at hfound'
          cases hfound'

theorem isCopyable_of_isMacroNameByte {b : UInt8} (hb : Recognizer.isMacroNameByte b = true) :
    isCopyable b = true ∧ isOrdinary b = false := by
  rw [Recognizer.isMacroNameByte, Bool.or_eq_true] at hb
  rcases hb with hb | hb
  · exact ⟨isCopyable_of_isLetter hb, isOrdinary_of_isLetter hb⟩
  · rw [beq_iff_eq.mp hb]
    decide

theorem definition_eq_none (h : Rewrites afterBackslash source target)
    (hbefore : before.escaped = false)
    (hname : LatexIntegrity.controlWord (('\\' : UInt8) :: source) = "def" →
      (afterControlWord (('\\' : UInt8) :: target)).head? = some ('\\' : UInt8) →
        (afterControlWord (('\\' : UInt8) :: source)).head? = some ('\\' : UInt8))
    (hopen : Recognizer.hasOpenArguments before (('\\' : UInt8) :: source) = false) :
    Recognizer.definition context (('\\' : UInt8) :: target) = none := by
  cases hfound : Recognizer.definition context (('\\' : UInt8) :: target) with
  | none => rfl
  | some construct =>
      obtain ⟨-, hword, behind, group, hbehind, hne, -⟩ :=
        Recognizer.definition_eq_some_iff.mp hfound
      obtain ⟨hsame, hafter⟩ := h.controlWord
      rw [hsame] at hword
      have hrest := hafter (by rw [hword]; decide)
      have hhead := hname hword (by rw [hbehind]; rfl)
      obtain ⟨behind', hbehind'⟩ := List.head?_eq_some_iff.mp hhead
      rw [hbehind, hbehind'] at hrest
      obtain ⟨rest, hrest', hcopied⟩ := hrest.cons_source rfl (by decide)
      cases hrest'
      have hrun := (hcopied.takeWhile_target rfl fun b => isCopyable_of_isMacroNameByte).1
      rw [Recognizer.hasOpenArguments, hword, hbehind', hbefore] at hopen
      revert hopen
      rw [show Recognizer.singleArgumentCommands.contains ("def" : Text) = false by decide,
        show (("def" : Text) == "href") = false by decide,
        show Recognizer.isCitationCommand ("def" : Text) = false by decide]
      simp [← hrun, hne]

theorem environment_eq_none (h : Rewrites afterBackslash source target)
    (hcontext : context.escaped = false) (hbefore : before.escaped = false)
    (hnone : Recognizer.environment before (('\\' : UInt8) :: source) = none) :
    Recognizer.environment context (('\\' : UInt8) :: target) = none := by
  cases hfound : Recognizer.environment context (('\\' : UInt8) :: target) with
  | none => rfl
  | some construct =>
      obtain ⟨hshielded, hfenced⟩ := Recognizer.environment_eq_some_iff.mp hfound
      obtain ⟨-, ⟨rest, hrest⟩, -⟩ := Recognizer.fenced_eq_some_iff.mp hfenced
      have hname := Recognizer.isName_of_isShieldedEnvironment hshielded
      rw [DelimiterToken.source_eq_cons, List.cons_append] at hrest
      obtain rfl := (List.cons.inj hrest).2
      -- The opener is copied, so that it stands in the source as well.
      obtain ⟨behind, rfl, hbehind⟩ := h.append_target rfl
        (isCopyable_of_mem_source ⟨.opening, construct.name⟩ hname)
      have hopener := DelimiterToken.source_eq_cons ⟨.opening, construct.name⟩
      rw [← List.cons_append, ← hopener] at hnone hfenced
      rw [← push_backslash hcontext, ← LeftContext.pushAll_cons, ← hopener] at hbehind
      have hnone' := fenced_eq_none (IsCloser.closing hname) (hbefore.trans hcontext.symm)
        hbehind ?_
      · rw [hnone'] at hfenced
        cases hfenced
      · cases hsource : Recognizer.fenced (DelimiterToken.mk .opening construct.name).source
            (DelimiterToken.mk .closing construct.name).source before
            ((DelimiterToken.mk .opening construct.name).source ++ behind) with
        | none => rfl
        | some found =>
            obtain ⟨-, -, distance, -, rfl⟩ := Recognizer.fenced_eq_some_iff.mp hsource
            have hfound' := Recognizer.environment_of_fenced hshielded hsource
            rw [hnone] at hfound'
            cases hfound'

theorem citationArguments?_eq_none (count : Nat) (h : Rewrites context source target)
    (hdollar : context.dollar = false)
    (hopen : ((Recognizer.optionalArguments? count source).any fun options =>
      (source.drop options).head? == some ('{' : UInt8)) = false) :
    Recognizer.citationArguments? count target = none := by
  cases hlength : Recognizer.citationArguments? count target with
  | none => rfl
  | some length =>
      obtain ⟨options, hoptions, hlength⟩ := Option.bind_eq_some_iff.mp hlength
      obtain ⟨argument, hargument, -⟩ := Option.bind_eq_some_iff.mp hlength
      obtain ⟨options', behind, hoptions', hbehind, hrest⟩ :=
        h.withoutBrackets.optionalArguments? count id hdollar hoptions
      rw [hoptions', Option.any_some, beq_eq_false_iff_ne] at hopen
      exact absurd (hrest.rewrites.head?_target hbehind (by decide)
        (Group.head?_of_flat?_eq_some hargument)) hopen

theorem command_eq_none (h : Rewrites afterBackslash source target)
    (hbefore : before.escaped = false)
    (hopen : Recognizer.hasOpenArguments before (('\\' : UInt8) :: source) = false) :
    Recognizer.command context (('\\' : UInt8) :: target) = none := by
  cases hfound : Recognizer.command context (('\\' : UInt8) :: target) with
  | none => rfl
  | some construct =>
      obtain ⟨-, hword, arguments, harguments, -⟩ := Recognizer.command_eq_some_iff.mp hfound
      obtain ⟨hsame, hafter⟩ := h.controlWord
      rw [hsame] at hword harguments
      have hrest := hafter hword
      rw [Recognizer.hasOpenArguments, hbefore, Bool.not_false, Bool.true_and] at hopen
      rw [Recognizer.commandArguments?_eq] at harguments
      -- Every command with arguments asks for a brace that the source does not have.
      have hbrace : ∀ length,
          Group.argument? (afterControlWord (('\\' : UInt8) :: target)) = some length →
            (afterControlWord (('\\' : UInt8) :: source)).head? = some ('{' : UInt8) :=
        fun length hlength =>
          hrest.head?_target rfl (by decide) (Group.head?_of_flat?_eq_some hlength)
      split at harguments
      · next hsingle =>
          rw [if_pos hsingle, hbrace _ harguments] at hopen
          cases hopen
      · next hsingle =>
          rw [if_neg hsingle] at hopen
          split at harguments
          · next hcitation =>
              rw [if_pos hcitation] at hopen
              rw [hrest.citationArguments?_eq_none 2 rfl hopen] at harguments
              cases harguments
          · next hcitation =>
              rw [if_neg hcitation] at hopen
              split at harguments
              · next hlink =>
                  obtain ⟨first, hfirst, -⟩ := Option.bind_eq_some_iff.mp harguments
                  rw [if_pos hlink, hbrace _ hfirst] at hopen
                  cases hopen
              · cases harguments

theorem bracketFence_eq_none (h : Rewrites afterBackslash source target)
    (hcontext : context.escaped = false) (hbefore : before.escaped = false)
    {first last : UInt8} (hlast : List.elem last "()[]" = true)
    (hnone : Recognizer.fenced [('\\' : UInt8), first] [('\\' : UInt8), last] before
      (('\\' : UInt8) :: source) = none) :
    Recognizer.fenced [('\\' : UInt8), first] [('\\' : UInt8), last] context
      (('\\' : UInt8) :: target) = none := by
  cases hfound : Recognizer.fenced [('\\' : UInt8), first] [('\\' : UInt8), last] context
      (('\\' : UInt8) :: target) with
  | none => rfl
  | some construct =>
      obtain ⟨-, ⟨rest, hrest⟩, -⟩ := Recognizer.fenced_eq_some_iff.mp hfound
      obtain rfl := (List.cons.inj hrest).2
      rcases h.of_escaped rfl with ⟨-, hnil⟩ | ⟨b, behind, behind', rfl, htarget, hbehind⟩
      · cases hnil
      · cases htarget
        have hopened : Rewrites (context.pushAll [('\\' : UInt8), first]) behind rest := by
          rw [LeftContext.pushAll_cons, push_backslash hcontext]
          exact hbehind
        have hnone' := hopened.fenced_eq_none (IsCloser.bracket hlast)
          (hbefore.trans hcontext.symm) hnone
        exact hfound.symm.trans hnone'

theorem definition_or_command {b : UInt8} (h : Rewrites (context.push b) source target)
    (hbefore : before.escaped = context.escaped)
    (hdollar : b = '$' → context.escaped = true)
    (hnone : construct? before (b :: source) = none) {kind : RegionKind} {found : Construct}
    (hfound : construct? context (b :: target) = some (kind, found)) :
    b = '\\' ∧ context.escaped = false ∧
      (kind = .definition ∧ Recognizer.definition context (b :: target) = some found ∨
        kind = .command ∧ Recognizer.command context (b :: target) = some found) := by
  have hescaped := escaped_of_construct? hfound
  rw [construct?_eq_none_iff] at hnone
  have hbackslash : b = '\\' := by
    by_contra hbackslash
    have hpercent : b ≠ '%' := by
      rintro rfl
      have hcomment := hnone (.comment, Recognizer.comment) List.mem_cons_self
      cases (Recognizer.comment_eq_some_iff.mpr
        ⟨hbefore.trans hescaped, source, rfl, rfl⟩).symm.trans hcomment
    have hnot : b ≠ '$' := fun hb => by
      rw [hdollar hb] at hescaped
      cases hescaped
    rw [construct?_eq_none_of_head hpercent hnot hbackslash] at hfound
    cases hfound
  subst hbackslash
  rw [push_backslash hescaped] at h
  rw [hescaped] at hbefore
  simp only [Recognizer.table, List.forall_mem_cons] at hnone
  obtain ⟨-, hnew, -, -, -, hround, hsquare, henvironment, -⟩ := hnone
  refine ⟨rfl, hescaped, ?_⟩
  obtain ⟨recognize, hentry, hfound⟩ := construct?_eq_some_iff.mp hfound
  simp only [Recognizer.table, List.mem_cons, Prod.mk.injEq, List.not_mem_nil,
    or_false] at hentry
  rcases hentry with ⟨-, rfl⟩ | ⟨-, rfl⟩ | ⟨hkind, rfl⟩ | ⟨-, rfl⟩ | ⟨-, rfl⟩ | ⟨-, rfl⟩ |
    ⟨-, rfl⟩ | ⟨-, rfl⟩ | ⟨hkind, rfl⟩
  · cases hfound
  · rw [h.newCommand_eq_none hbefore hnew] at hfound
    cases hfound
  · exact .inl ⟨hkind, hfound⟩
  · cases hfound
  · cases hfound
  · cases hfound.symm.trans (h.bracketFence_eq_none hescaped hbefore (by decide) hround)
  · cases hfound.symm.trans (h.bracketFence_eq_none hescaped hbefore (by decide) hsquare)
  · rw [h.environment_eq_none hescaped hbefore henvironment] at hfound
    cases hfound
  · exact .inr ⟨hkind, hfound⟩

/-- A plain byte that a rewriting copies stays plain. -/
theorem construct?_eq_none {b : UInt8} (h : Rewrites (context.push b) source target)
    (hbefore : before.escaped = context.escaped)
    (hdollar : b = '$' → context.escaped = true)
    (hdefinition : Recognizer.definition context (b :: target) = none)
    (hopen : Recognizer.hasOpenArguments before (b :: source) = false)
    (hnone : construct? before (b :: source) = none) :
    construct? context (b :: target) = none := by
  cases hfound : construct? context (b :: target) with
  | none => rfl
  | some found =>
      obtain ⟨rfl, hescaped, hfound⟩ := h.definition_or_command hbefore hdollar hnone hfound
      rw [push_backslash hescaped] at h
      rcases hfound with ⟨-, hfound⟩ | ⟨-, hfound⟩
      · rw [hdefinition] at hfound
        cases hfound
      · rw [h.command_eq_none (hbefore.trans hescaped) hopen] at hfound
        cases hfound

end Rewrites

end LatexIntegrity
