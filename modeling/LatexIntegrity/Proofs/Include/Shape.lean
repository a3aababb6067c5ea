import LatexIntegrity.Proofs.Edit.Splice
import LatexIntegrity.Proofs.Include.Commands
import LatexIntegrity.Proofs.Markup.Groups
import LatexIntegrity.Proofs.Text.Parts

/-!
# What an input command looks like

The bytes of a command as a language, and the commands that stand in a text.  A command ends
with the first closing brace of its argument, so where one stands inside the argument of
another one, both end with the same brace.
-/

namespace LatexIntegrity

namespace InputCommand

open LatexIntegrity.Group

variable {context : LeftContext} {text name source : Text} {length : Nat}
variable {first second command : InputCommand}

def IsNameIn (body name : Text) : Prop :=
  name ≠ [] ∧ ((∀ b ∈ name.head?, isPadding b = false) ∧
    ∀ b ∈ name.getLast?, isPadding b = false) ∧
      ∃ left right : Text, (∀ b ∈ left, isPadding b = true) ∧ (∀ b ∈ right, isPadding b = true) ∧
        body = left ++ name ++ right

theorem isNameIn_iff {body : Text} :
    IsNameIn body name ↔ name ≠ [] ∧ Text.trim isPadding body = name := by
  rw [IsNameIn, Text.trim_eq_iff]

def IsSource (name source : Text) : Prop :=
  ∃ blanks body : Text, (∀ b ∈ blanks, Ascii.isBlank b = true) ∧ ('}' : UInt8) ∉ body ∧
    IsNameIn body name ∧ source = ('\\' : UInt8) :: ("input" ++ (blanks ++
      ('{' : UInt8) :: (body ++ [('}' : UInt8)])))

theorem IsSource.eq_concat (h : IsSource name source) :
    ∃ before, source = before ++ [('}' : UInt8)] ∧ ('}' : UInt8) ∉ before := by
  obtain ⟨blanks, body, hblanks, hbody, -, rfl⟩ := h
  have hblank : ('}' : UInt8) ∉ blanks := fun hmem => absurd (hblanks _ hmem) (by decide)
  have hword : ('}' : UInt8) ∉ Text.ofString "input" := by decide
  refine ⟨('\\' : UInt8) :: ("input" ++ (blanks ++ ('{' : UInt8) :: body)), by simp, ?_⟩
  simp only [List.mem_cons, List.mem_append, hword, hblank, hbody, or_false, false_or]
  decide

theorem IsSource.ne_nil (h : IsSource name source) : source ≠ [] := by
  obtain ⟨blanks, body, -, -, -, rfl⟩ := h
  exact List.cons_ne_nil _ _

theorem read?_eq_some_iff : read? context text = some (name, length) ↔
    context.escaped = false ∧ controlWord text = "input" ∧
      let behind := (afterControlWord text).dropWhile Ascii.isBlank
      ∃ argument, Group.argument? behind = some argument ∧
        Text.trim isPadding (Group.body argument behind) = name ∧ name ≠ [] ∧
          6 + ((afterControlWord text).takeWhile Ascii.isBlank).length + argument = length := by
  have hdrop : (afterControlWord text).drop
      ((afterControlWord text).takeWhile Ascii.isBlank).length =
        (afterControlWord text).dropWhile Ascii.isBlank := drop_length_takeWhile _ _
  unfold read?
  dsimp only
  rw [hdrop, Option.ite_none_left_eq_some, Option.bind_eq_bind, Option.bind_eq_some_iff]
  simp only [Option.ite_none_left_eq_some, Option.some.injEq, Prod.mk.injEq, Bool.or_eq_true,
    bne_iff_ne, ne_eq, not_or, not_not, Bool.not_eq_true, List.isEmpty_eq_false_iff, and_assoc]
  refine and_congr_right fun _ => and_congr_right fun _ => exists_congr fun argument =>
    and_congr_right fun _ => ?_
  constructor
  · rintro ⟨hne, rfl, hlength⟩
    exact ⟨rfl, hne, hlength⟩
  · rintro ⟨rfl, hne, hlength⟩
    exact ⟨hne, rfl, hlength⟩

theorem exists_source_of_read? (h : read? context text = some (name, length)) :
    ∃ source rest, text = source ++ rest ∧ source.length = length ∧ IsSource name source := by
  obtain ⟨-, hword, argument, hargument, hname, hne, rfl⟩ := read?_eq_some_iff.mp h
  obtain ⟨body, rest, hbehind, hclosed, rfl⟩ := argument?_eq_some_iff.mp hargument
  have htext := eq_cons_controlWord_append (head?_eq_of_controlWord_ne_nil
    (show controlWord text ≠ [] by rw [hword]; decide))
  rw [← List.takeWhile_append_dropWhile (p := Ascii.isBlank) (l := afterControlWord text),
    hbehind] at htext
  rw [hbehind, body_append] at hname
  have hblanks : ∀ b ∈ (afterControlWord text).takeWhile Ascii.isBlank, Ascii.isBlank b = true :=
    fun b hb => List.mem_takeWhile_imp hb
  refine ⟨_, rest, ?_, ?_, (afterControlWord text).takeWhile Ascii.isBlank, body, hblanks, hclosed,
    isNameIn_iff.mpr ⟨hne, hname⟩, rfl⟩
  · exact htext.trans (by rw [hword]; simp)
  · have hword : (Text.ofString "input").length = 5 := by decide
    simp only [List.length_cons, List.length_append, List.length_nil]
    omega

theorem read?_append (hcontext : context.escaped = false) (h : IsSource name source)
    (rest : Text) : read? context (source ++ rest) = some (name, source.length) := by
  have hletters : ∀ b ∈ Text.ofString "input", Ascii.isLetter b = true :=
    List.all_eq_true.mp (by decide)
  obtain ⟨blanks, body, hblanks, hclosed, hname, rfl⟩ := h
  obtain ⟨hne, hname⟩ := isNameIn_iff.mp hname
  have hargument : Group.argument? (('{' : UInt8) :: (body ++ [('}' : UInt8)]) ++ rest) =
      some (body.length + 2) := argument?_eq_some_iff.mpr ⟨body, rest, rfl, hclosed, rfl⟩
  have hhead : ∀ b, (blanks ++ (('{' : UInt8) :: (body ++ [('}' : UInt8)]) ++ rest)).head? =
      some b → Ascii.isLetter b = false := by
    cases blanks with
    | nil =>
        rintro b ⟨rfl⟩
        decide
    | cons blank blanks =>
        rintro b ⟨rfl⟩
        have hblank := hblanks blank List.mem_cons_self
        simp only [Ascii.isBlank, Bool.or_eq_true, beq_iff_eq] at hblank
        rcases hblank with rfl | rfl <;> decide
  have hdrop : (blanks ++ (('{' : UInt8) :: (body ++ [('}' : UInt8)]) ++ rest)).dropWhile
      Ascii.isBlank = ('{' : UInt8) :: (body ++ [('}' : UInt8)]) ++ rest := by
    rw [List.dropWhile_append_of_pos hblanks, List.cons_append,
      List.dropWhile_cons_of_neg (by decide)]
  have htake : (blanks ++ (('{' : UInt8) :: (body ++ [('}' : UInt8)]) ++ rest)).takeWhile
      Ascii.isBlank = blanks := by
    rw [List.takeWhile_append_of_pos hblanks, List.cons_append,
      List.takeWhile_cons_of_neg (by decide), List.append_nil]
  rw [read?_eq_some_iff, List.cons_append, List.append_assoc, List.append_assoc,
    controlWord_cons_append hletters hhead, afterControlWord_cons_append hletters hhead, hdrop,
    htake]
  refine ⟨hcontext, rfl, _, hargument, ?_, hne, ?_⟩
  · rw [body_append, hname]
  · have hword : (Text.ofString "input").length = 5 := by decide
    simp only [List.length_cons, List.length_append, List.length_nil]
    omega

structure IsIn (text : Text) (command : InputCommand) : Prop where
  unescaped : isEscapedAt text command.start = false
  source : IsSource command.name (text.slice command.start command.stop)
  stop_le : command.stop ≤ text.length

theorem IsIn.exists_append (h : IsIn text command) :
    ∃ before rest, text.drop command.start = before ++ ('}' : UInt8) :: rest ∧
      ('}' : UInt8) ∉ before ∧ command.stop = command.start + before.length + 1 := by
  obtain ⟨before, hbefore, hclosed⟩ := h.source.eq_concat
  have hle := h.stop_le
  have hlength := congrArg List.length hbefore
  simp only [Text.slice, List.length_take, List.length_drop, List.length_append,
    List.length_singleton] at hlength
  refine ⟨before, (text.drop command.start).drop (command.stop - command.start), ?_, hclosed,
    by omega⟩
  rw [← List.singleton_append, ← List.append_assoc, ← hbefore, Text.slice, List.take_append_drop]

theorem IsIn.start_lt_stop (h : IsIn text command) : command.start < command.stop := by
  obtain ⟨before, rest, -, -, hstop⟩ := h.exists_append
  omega

theorem at?_iff_isIn : at? text command.start = some command ↔ IsIn text command := by
  rw [at?_eq_some_iff]
  constructor
  · rintro ⟨length, hread, -, hstop⟩
    obtain ⟨source, rest, htext, rfl, hsource⟩ := exists_source_of_read? hread
    have hlength := congrArg List.length htext
    have hpos := List.length_pos_iff.mpr hsource.ne_nil
    rw [List.length_drop, List.length_append] at hlength
    refine ⟨(read?_eq_some_iff.mp hread).1, ?_, by omega⟩
    rwa [Text.slice, htext, hstop, Nat.add_sub_cancel_left, List.take_left]
  · intro h
    have hlt := h.start_lt_stop
    have hle := h.stop_le
    have hcontext : (LeftContext.after (text.take command.start)).escaped = false := h.unescaped
    have hread := read?_append hcontext h.source (text.drop command.stop)
    refine ⟨command.stop - command.start, ?_, rfl, by omega⟩
    rw [text.slice_append_drop hlt.le] at hread
    rw [hread, Text.slice, List.length_take_of_le (by rw [List.length_drop]; omega)]

theorem IsIn.stop_eq (hfirst : IsIn text first) (hsecond : IsIn text second)
    (hbefore : first.start < second.start) (hinside : second.start < first.stop) :
    first.stop = second.stop := by
  obtain ⟨before, rest, htext, hclosed, hstop⟩ := hfirst.exists_append
  obtain ⟨before', rest', htext', hclosed', hstop'⟩ := hsecond.exists_append
  obtain ⟨distance, hdistance⟩ := Nat.exists_eq_add_of_lt hbefore
  have hrest : text.drop second.start =
      before.drop (distance + 1) ++ ('}' : UInt8) :: rest := by
    rw [hdistance, Nat.add_assoc, ← List.drop_drop, htext,
      List.drop_append_of_le_length (by omega)]
  have hcut := Text.eq_of_append_cons_eq (fun hmem => hclosed (List.mem_of_mem_drop hmem)) hclosed'
    (hrest.symm.trans htext')
  have hlength := congrArg List.length hcut.1
  rw [List.length_drop] at hlength
  omega

end InputCommand

end LatexIntegrity
