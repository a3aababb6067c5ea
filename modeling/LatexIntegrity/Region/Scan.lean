import LatexIntegrity.Region.Recognizer

/-!
Segmentation reads a text from left to right.  Where a construct is recognised,
its bytes become a region; the bytes up to the next construct become one plain
region.  The bodies of the regions, one behind the other, are the text.
-/

namespace LatexIntegrity

def plainRun (context : LeftContext) : Text → Text
  | [] => []
  | b :: rest =>
      if (construct? context (b :: rest)).isSome then []
      else b :: plainRun (context.push b) rest

theorem plainRun_append_drop (context : LeftContext) (text : Text) :
    plainRun context text ++ text.drop (plainRun context text).length = text := by
  induction text generalizing context with
  | nil => rfl
  | cons b rest ih =>
      rw [plainRun]
      split
      · simp
      · simp [ih]

def regionsFrom (context : LeftContext) (text : Text) : List Region :=
  match text with
  | [] => []
  | b :: rest =>
      match construct? context (b :: rest) with
      | some (kind, construct) =>
          let others := rest.take (construct.length - 1)
          ⟨kind, construct.name, b :: others⟩ ::
            regionsFrom (context.pushAll (b :: others)) (rest.drop (construct.length - 1))
      | none =>
          let others := plainRun (context.push b) rest
          ⟨.plain, [], b :: others⟩ ::
            regionsFrom (context.pushAll (b :: others)) (rest.drop others.length)
  termination_by text.length
  decreasing_by all_goals simp only [List.length_drop, List.length_cons]; omega

def regions (text : Text) : List Region := regionsFrom .initial text

theorem flatMap_body_regionsFrom (context : LeftContext) (text : Text) :
    (regionsFrom context text).flatMap (·.body) = text := by
  fun_induction regionsFrom context text with
  | case1 => rfl
  | case2 context b rest kind construct recognized others ih =>
      rw [List.flatMap_cons, ih]
      exact congrArg (b :: ·) (List.take_append_drop _ _)
  | case3 context b rest unrecognized others ih =>
      rw [List.flatMap_cons, ih]
      exact congrArg (b :: ·) (plainRun_append_drop _ _)

theorem flatMap_body_regions (text : Text) : (regions text).flatMap (·.body) = text :=
  flatMap_body_regionsFrom .initial text

def segment (text : Text) : List Span := Region.spans 0 (regions text)

end LatexIntegrity
