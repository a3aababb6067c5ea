import LatexIntegrity.Proofs.Region.Commands
import LatexIntegrity.Repair.Figures

/-!
# Figures that a text includes

A figure is included by a command with an optional bracket group and a path in braces.  The
commands of a text are listed from left to right, and what a listed command covers is not
looked at again.
-/

namespace LatexIntegrity.Repair

open LatexIntegrity.Group

def IsFigureCommand (path source : Text) : Prop :=
  ∃ options : Text, (options = [] ∨ IsFlat '[' ']' options) ∧ path ≠ [] ∧ ('}' : UInt8) ∉ path ∧
    source = ('\\' : UInt8) :: ("includegraphics" ++
      (options ++ ('{' : UInt8) :: (path ++ [('}' : UInt8)])))

theorem IsFigureCommand.ne_nil {path source : Text} (h : IsFigureCommand path source) :
    source ≠ [] := by
  obtain ⟨options, -, -, -, rfl⟩ := h
  exact List.cons_ne_nil _ _

namespace FigureReference

variable {context : LeftContext} {text path source : Text} {length : Nat}

def options? (text : Text) : Option Nat :=
  if text.head? = some ('[' : UInt8) then Group.optional? text else some 0

theorem read?_eq_some_iff : read? context text = some (path, length) ↔
    context.escaped = false ∧ controlWord text = "includegraphics" ∧
      ∃ options argument, options? (afterControlWord text) = some options ∧
        Group.argument? ((afterControlWord text).drop options) = some argument ∧
          Group.body argument ((afterControlWord text).drop options) = path ∧ path ≠ [] ∧
            1 + (controlWord text).length + options + argument = length := by
  have hread : read? context text =
      if (context.escaped || controlWord text != Text.ofString "includegraphics") = true then none
      else (options? (afterControlWord text)).bind fun options =>
        (Group.argument? ((afterControlWord text).drop options)).bind fun argument =>
          if (Group.body argument ((afterControlWord text).drop options)).isEmpty then none
          else some (Group.body argument ((afterControlWord text).drop options),
            1 + (Text.ofString "includegraphics").length + options + argument) := by
    rw [read?, options?]
    by_cases hhead : (afterControlWord text).head? = some ('[' : UInt8)
    · simp only [if_pos hhead]
      rfl
    · simp only [if_neg hhead]
      rfl
  rw [hread, Option.ite_none_left_eq_some, Option.bind_eq_some_iff]
  simp only [Option.bind_eq_some_iff, Option.ite_none_left_eq_some, Option.some.injEq,
    Prod.mk.injEq, Bool.or_eq_true, bne_iff_ne, ne_eq, not_or, not_not, Bool.not_eq_true,
    List.isEmpty_eq_false_iff, and_assoc]
  refine and_congr_right fun _ => and_congr_right fun hword => exists_congr fun options => ?_
  rw [hword, exists_and_left]
  refine and_congr_right fun _ => exists_congr fun argument => and_congr_right fun _ => ?_
  constructor
  · rintro ⟨hne, rfl, hlength⟩
    exact ⟨rfl, hne, hlength⟩
  · rintro ⟨rfl, hne, hlength⟩
    exact ⟨hne, rfl, hlength⟩

theorem options?_spec {options : Nat} (h : options? text = some options) :
    options ≤ text.length ∧ (text.take options = [] ∨ IsFlat '[' ']' (text.take options)) := by
  rw [options?] at h
  split at h
  · exact ⟨(flat?_isLocal '[' ']').fits h, .inr (isFlat_of_flat? h)⟩
  · cases h
    exact ⟨Nat.zero_le _, .inl List.take_zero⟩

theorem exists_source_of_read? (h : read? context text = some (path, length)) :
    ∃ source rest, text = source ++ rest ∧ source.length = length ∧
      IsFigureCommand path source := by
  obtain ⟨-, hword, options, argument, hoptions, hargument, rfl, hne, rfl⟩ := read?_eq_some_iff.mp h
  obtain ⟨hfit, hflat⟩ := options?_spec hoptions
  obtain ⟨path, rest, hbehind, hclosed, rfl⟩ := argument?_eq_some_iff.mp hargument
  have htext := eq_cons_controlWord_append (head?_eq_of_controlWord_ne_nil
    (show controlWord text ≠ [] by rw [hword]; decide))
  have hgroup := List.length_take_of_le hfit
  rw [← List.take_append_drop options (afterControlWord text), hbehind] at htext
  rw [hbehind, body_append] at hne ⊢
  refine ⟨_, rest, ?_, ?_, (afterControlWord text).take options, hflat, hne, hclosed, rfl⟩
  · exact htext.trans (by rw [hword]; simp)
  · rw [hword]
    simp only [List.length_cons, List.length_append, List.length_nil]
    omega

theorem read?_append (hcontext : context.escaped = false) (h : IsFigureCommand path source)
    (rest : Text) : read? context (source ++ rest) = some (path, source.length) := by
  have hletters : ∀ b ∈ Text.ofString "includegraphics", Ascii.isLetter b = true :=
    List.all_eq_true.mp (by decide)
  obtain ⟨options, hoptions, hne, hclosed, rfl⟩ := h
  have hargument : Group.argument? (('{' : UInt8) :: (path ++ [('}' : UInt8)]) ++ rest) =
      some (path.length + 2) := argument?_eq_some_iff.mpr ⟨path, rest, rfl, hclosed, rfl⟩
  have hgroup : options? (options ++ (('{' : UInt8) :: (path ++ [('}' : UInt8)]) ++ rest)) =
      some options.length := by
    rcases hoptions with rfl | hflat
    · rfl
    · rw [options?, if_pos (Recognizer.head?_of_isFlat hflat _)]
      exact flat?_append hflat _
  have hhead : ∀ b, (options ++ (('{' : UInt8) :: (path ++ [('}' : UInt8)]) ++ rest)).head? =
      some b → Ascii.isLetter b = false := by
    rcases hoptions with rfl | ⟨body, rfl, -⟩
    · rintro b ⟨rfl⟩
      decide
    · rintro b ⟨rfl⟩
      decide
  rw [read?_eq_some_iff, List.cons_append, List.append_assoc, List.append_assoc,
    controlWord_cons_append hletters hhead, afterControlWord_cons_append hletters hhead]
  refine ⟨hcontext, rfl, _, _, hgroup, by rw [List.drop_left]; exact hargument, ?_, hne, ?_⟩
  · rw [List.drop_left, body_append]
  · simp only [List.length_cons, List.length_append, List.length_nil]
    omega

theorem read?_iff : read? context text = some (path, length) ↔
    context.escaped = false ∧ ∃ source rest, text = source ++ rest ∧ source.length = length ∧
      IsFigureCommand path source := by
  constructor
  · exact fun h => ⟨(read?_eq_some_iff.mp h).1, exists_source_of_read? h⟩
  · rintro ⟨hcontext, source, rest, rfl, rfl, hcommand⟩
    exact read?_append hcontext hcommand rest

/--
What holds of the figures of a text if it holds of no figures, and a listed command or a byte at
which none is listed keeps it in front.
-/
theorem listFrom_induction {spans : List Span}
    {motive : Text → Text → List FigureReference → Prop} (nil : ∀ before, motive before [] [])
    (command : ∀ {before source rest path figures}, IsFigureCommand path source →
      (LeftContext.after before).escaped = false → isEligible spans before.length = true →
        motive (before ++ source) rest figures →
          motive before (source ++ rest) (⟨path, before.length⟩ :: figures))
    (other : ∀ {before b rest figures},
      (isEligible spans before.length = true → read? (.after before) (b :: rest) = none) →
        motive (before ++ [b]) rest figures → motive before (b :: rest) figures)
    (before rest : Text) :
    motive before rest (listFrom spans (.after before) before.length rest) := by
  -- Behind a command the list goes on with less than a tail of the text.
  induction hn : rest.length using Nat.strongRecOn generalizing before rest with
  | ind n ih =>
      subst hn
      cases rest with
      | nil =>
          rw [listFrom]
          exact nil before
      | cons b rest =>
          rw [listFrom]
          split
          · next path length hread =>
              obtain ⟨hread, heligible⟩ := Option.filter_eq_some_iff.mp hread
              obtain ⟨hescaped, source, behind, htext, rfl, hcommand⟩ := read?_iff.mp hread
              have hpos := List.length_pos_iff.mpr hcommand.ne_nil
              have hlength := congrArg List.length htext
              rw [List.length_append] at hlength
              rw [← List.drop_cons hpos, htext, List.take_left, List.drop_left,
                ← LeftContext.after_append, ← List.length_append]
              exact command hcommand hescaped heligible (ih _ (by omega) _ _ rfl)
          · next hnone =>
              have hrest := ih rest.length (Nat.lt_succ_self _) (before ++ [b]) rest rfl
              rw [List.length_append, List.length_singleton, LeftContext.after_concat] at hrest
              refine other (fun heligible => ?_) hrest
              rw [Option.filter_eq_none_iff] at hnone
              exact Option.eq_none_iff_forall_not_mem.mpr fun found hfound =>
                hnone found hfound heligible

theorem of_mem_figureReferences {spans : List Span} {figure : FigureReference}
    (h : figure ∈ figureReferences text spans) :
    isEligible spans figure.offset = true ∧ isEscapedAt text figure.offset = false ∧
      ∃ source rest, text.drop figure.offset = source ++ rest ∧
        IsFigureCommand figure.path source := by
  refine listFrom_induction (motive := fun before rest figures =>
    ∀ figure ∈ figures, isEligible spans figure.offset = true ∧
      isEscapedAt (before ++ rest) figure.offset = false ∧
        ∃ source behind, (before ++ rest).drop figure.offset = source ++ behind ∧
          IsFigureCommand figure.path source) ?_ ?_ ?_ [] text figure h
  · exact fun before => List.forall_mem_nil _
  · intro before source rest path figures hcommand hescaped heligible hfigures
    rw [List.append_assoc] at hfigures
    refine List.forall_mem_cons.mpr ⟨⟨heligible, ?_, source, rest, ?_, hcommand⟩, hfigures⟩
    · rw [isEscapedAt, List.take_left, hescaped]
    · rw [List.drop_left]
  · intro before b rest figures _ hfigures
    rwa [List.append_assoc] at hfigures

end FigureReference

end LatexIntegrity.Repair
