import LatexIntegrity.Proofs.Region.Survival
import LatexIntegrity.Proofs.Rewriting.Scanners
import LatexIntegrity.Proofs.Sanitize.Rewriting
import LatexIntegrity.Proofs.Sanitize.Tracks

/-!
# What replacements bring

A replacement is either inline mathematics or plain text that no key stands in and
that begins no construct, whatever follows it.
-/

namespace LatexIntegrity

/-- The control words that constructs begin with, citations apart. -/
def constructWords : List Text :=
  "def" :: "begin" :: "href" :: (Recognizer.definitionCommands ++
    Recognizer.singleArgumentCommands)

def isPlainEscape (text : Text) : Bool :=
  isHarmlessEscape text && !constructWords.contains (controlWord text) &&
    !Recognizer.isCitationCommand (controlWord text)

/-- Plain text that stays plain and that no key stands in, whatever follows it. -/
def isPlainReplacement : Bool → Text → Bool
  | escaped, [] => !escaped
  | true, _ :: rest => isPlainReplacement false rest
  | false, b :: rest =>
      if b == '\\' then isPlainEscape (b :: rest) && isPlainReplacement true rest
      else b != '%' && b != '$' && !isOrdinary b && isPlainReplacement false rest

def isMathReplacement (text : Text) : Bool :=
  Recognizer.inlineMath ⟨false, false⟩ text == some ⟨text.length, []⟩

def isKnownReplacement (text : Text) : Bool :=
  isPlainReplacement false text || isMathReplacement text

variable {context : LeftContext} {text : Text}

theorem commandArguments?_eq_none_of_not_mem {word : Text} (hword : word ∉ constructWords)
    (hcitation : Recognizer.isCitationCommand word = false) (text : Text) :
    Recognizer.commandArguments? word text = none := by
  simp only [constructWords, List.mem_cons, List.mem_append, not_or] at hword
  obtain ⟨-, -, hlink, -, hsingle⟩ := hword
  rw [Recognizer.commandArguments?, if_neg (by simpa using hsingle), hcitation,
    if_neg Bool.false_ne_true, if_neg (by simpa using hlink)]

theorem candidate_of_not_mem_constructWords (hhead : text.head? = some ('\\' : UInt8))
    (hword : controlWord text ∉ constructWords) {b : UInt8}
    (hb : (afterControlWord text).head? = some b) (hbracket : List.elem b "()[]" = false) :
    Recognizer.candidate text = 8 := by
  by_cases hempty : controlWord text = []
  · obtain ⟨rest, rfl⟩ := List.head?_eq_some_iff.mp hhead
    rw [afterControlWord, hempty] at hb
    have hrest : rest.head? = some b := hb
    have hround : b ≠ '(' := by
      rintro rfl
      revert hbracket
      decide
    have hsquare : b ≠ '[' := by
      rintro rfl
      revert hbracket
      decide
    have hpercent : (('\\' : UInt8) == ('%' : UInt8)) = false := by decide
    have hdollar : (('\\' : UInt8) == ('$' : UInt8)) = false := by decide
    rw [Recognizer.candidate, hpercent, hdollar, hrest, hempty]
    simp [hround, hsquare]
    decide
  · simp only [constructWords, List.mem_cons, List.mem_append, not_or] at hword
    obtain ⟨hdef, hbegin, -, hdefinition, -⟩ := hword
    rw [Recognizer.candidate_of_controlWord hempty]
    simp [hdef, hbegin, hdefinition]

theorem construct?_eq_none_of_isPlainEscape (hhead : text.head? = some ('\\' : UInt8))
    (h : isPlainEscape text = true) (other : Text) :
    construct? context (text ++ other) = none := by
  simp only [isPlainEscape, Bool.and_eq_true, Bool.not_eq_true'] at h
  obtain ⟨⟨hharmless, hword⟩, hcitation⟩ := h
  have hne : afterControlWord text ≠ [] := by
    intro hnil
    rw [isHarmlessEscape, hnil] at hharmless
    cases hharmless
  have hsame := (controlWord_append hhead hne other).1
  have hword : controlWord (text ++ other) ∉ constructWords := by
    rw [hsame]
    simpa using hword
  obtain ⟨-, b, hb, hbracket⟩ := IsCloser.isHarmlessEscape_append hhead hharmless other
  have hhead' : (text ++ other).head? = some ('\\' : UInt8) := by
    obtain ⟨rest, rfl⟩ := List.head?_eq_some_iff.mp hhead
    rfl
  refine construct?_eq_none_of_candidate ?_
  intro entry hentry
  rw [candidate_of_not_mem_constructWords hhead' hword hb hbracket] at hentry
  cases hentry
  simp only [Recognizer.command, commandArguments?_eq_none_of_not_mem hword (hsame ▸ hcitation)]
  split <;> rfl

namespace Escaper

variable {escaper : Escaper} {written : LeftContext} {target chunk : Text}

theorem Tracks.match?_eq_none (htable : escaper.table.IsInert) {b : UInt8}
    (hb : isOrdinary b = false) : escaper.table.match? (b :: text) = none := by
  cases hmatch : escaper.table.match? (b :: text) with
  | none => rfl
  | some entry =>
      obtain ⟨hentry, behind, hbehind⟩ := EscapeTable.match?_eq_some hmatch
      obtain ⟨first, rest, hkey⟩ :=
        List.exists_cons_of_ne_nil (htable.staysInside entry hentry).1
      rw [hkey, List.cons_append, List.cons.injEq] at hbehind
      obtain ⟨rfl, -⟩ := hbehind
      have hordinary := htable.ordinary entry hentry first (by rw [hkey]; exact List.mem_cons_self)
      rw [hordinary] at hb
      cases hb

namespace Accepts

variable {holds : LeftContext → Text → Prop} (hholds : escaper.Accepts holds)

include hholds

theorem writes_plain (htable : escaper.table.IsInert) {escaped : Bool}
    (hchunk : isPlainReplacement escaped chunk = true) (hwritten : written.escaped = escaped)
    (h : holds (written.pushAll chunk) target) : holds written (chunk ++ target) := by
  fun_induction isPlainReplacement escaped chunk generalizing written with
  | case1 => exact h
  | case2 b rest ih =>
      refine hholds.write (construct?_eq_none_of_escaped hwritten _) (.inl hwritten) ?_
      exact ih hchunk (by simp [hwritten]) h
  | case3 b rest hb ih =>
      rw [Bool.and_eq_true] at hchunk
      obtain rfl := beq_iff_eq.mp hb
      refine hholds.write (construct?_eq_none_of_isPlainEscape rfl hchunk.1 target)
        (.inr (Tracks.match?_eq_none htable (by decide))) ?_
      exact ih hchunk.2 (by simp [hwritten]) h
  | case4 b rest hb ih =>
      simp only [Bool.and_eq_true, bne_iff_ne, ne_eq, Bool.not_eq_true'] at hchunk
      obtain ⟨⟨⟨hpercent, hdollar⟩, hordinary⟩, hrest⟩ := hchunk
      have hbackslash : b ≠ '\\' := by simpa using hb
      refine hholds.write (construct?_eq_none_of_head hpercent hdollar hbackslash _)
        (.inr (Tracks.match?_eq_none htable hordinary)) ?_
      exact ih hrest (by simp [hbackslash]) h

theorem writes_math (hchunk : isMathReplacement chunk = true) (hwritten : written = ⟨false, false⟩)
    (htarget : target.head? ≠ some ('$' : UInt8)) (h : holds (written.pushAll chunk) target) :
    holds written (chunk ++ target) := by
  have hmath := beq_iff_eq.mp hchunk
  have hagain := (Recognizer.inlineMath_spec hmath).2.2.2 target htarget
  rw [List.take_length, ← hwritten] at hagain
  have hne : chunk ≠ [] := by
    rintro rfl
    cases hmath
  have hfound : construct? written (chunk ++ target) =
      some (.inlineMath, ⟨chunk.length, []⟩) :=
    construct?_eq_some_iff.mpr ⟨Recognizer.inlineMath, by simp [Recognizer.table], hagain⟩
  exact @Accepts.add _ _ hholds written ⟨.inlineMath, [], chunk⟩ target hne
    (fun heq => RegionKind.noConfusion heq) hfound h

end Accepts

end Escaper

end LatexIntegrity
