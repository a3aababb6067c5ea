import Mathlib.Data.List.Infix
import LatexIntegrity.Proofs.Markup.Locality

/-!
# Rewriting a text

A rewriting of a text copies most bytes.  It replaces keys, which consist of
ordinary bytes, by inert replacements, and it may keep a dollar sign apart from
what follows.  An inert replacement neither opens nor closes anything that the
bytes around it could close or open.
-/

namespace LatexIntegrity

/-- Whether a byte is a character of its own. -/
def Ascii.contains (b : UInt8) : Bool := b.toNat < 128

def isOrdinary (b : UInt8) : Bool :=
  !Ascii.isLetter b && !List.elem b "\\$\x7b\x7d[]*@ \n"

namespace Group

/--
The number of open groups behind a text, unless it closes one that it does not open
or ends in a backslash that escapes the byte behind it.
-/
def depthBehind : Bool → Nat → Text → Option Nat
  | false, depth, [] => some depth
  | true, _, [] => none
  | true, depth, _ :: rest => depthBehind false depth rest
  | false, depth, b :: rest =>
      if b == '\\' then depthBehind true depth rest
      else if b == '{' then depthBehind false (depth + 1) rest
      else if b == '}' then
        match depth with
        | 0 => none
        | outer + 1 => depthBehind false outer rest
      else depthBehind false depth rest

end Group

/-- A backslash that begins no delimiter, whatever stands behind these bytes. -/
def isHarmlessEscape (text : Text) : Bool :=
  match (afterControlWord text).head? with
  | none => false
  | some b =>
      !List.elem b "()[]" && controlWord text != DelimiterSide.opening.word &&
        controlWord text != DelimiterSide.closing.word

/-- A text that can be put in place of ordinary bytes. -/
structure IsInert (chunk : Text) : Prop where
  head : chunk.head? = some ('\\' : UInt8) ∨ chunk.head? = some ('$' : UInt8) ∨
    chunk.head? = some (' ' : UInt8)
  bracket : (']' : UInt8) ∉ chunk
  balanced : Group.depthBehind false 0 chunk = some 0
  settled : ∀ dollar : Bool, ((LeftContext.mk false dollar).pushAll chunk).escaped = false
  escapes : ∀ suffix ∈ chunk.tails, suffix.head? = some ('\\' : UInt8) →
    isHarmlessEscape suffix = true
  ascii : chunk.all Ascii.contains = true

instance (chunk : Text) : Decidable (IsInert chunk) :=
  decidable_of_iff
    ((chunk.head? = some ('\\' : UInt8) ∨ chunk.head? = some ('$' : UInt8) ∨
        chunk.head? = some (' ' : UInt8)) ∧
      (']' : UInt8) ∉ chunk ∧ Group.depthBehind false 0 chunk = some 0 ∧
        (((LeftContext.mk false false).pushAll chunk).escaped = false ∧
          ((LeftContext.mk false true).pushAll chunk).escaped = false) ∧
          (∀ suffix ∈ chunk.tails, suffix.head? = some ('\\' : UInt8) →
            isHarmlessEscape suffix = true) ∧ chunk.all Ascii.contains = true)
    ⟨fun ⟨head, bracket, balanced, settled, escapes, ascii⟩ =>
        ⟨head, bracket, balanced, Bool.forall_bool.mpr settled, escapes, ascii⟩,
      fun ⟨head, bracket, balanced, settled, escapes, ascii⟩ =>
        ⟨head, bracket, balanced, Bool.forall_bool.mp settled, escapes, ascii⟩⟩

/-- A byte with which no inert text begins. -/
def isCopyable (b : UInt8) : Bool := b != '\\' && b != '$' && b != ' '

namespace IsInert

variable {chunk : Text}

theorem exists_cons (h : IsInert chunk) :
    ∃ b rest, chunk = b :: rest ∧ isCopyable b = false := by
  rcases h.head with hhead | hhead | hhead
  all_goals
    obtain ⟨rest, hrest⟩ := List.head?_eq_some_iff.mp hhead
    exact ⟨_, rest, hrest, by decide⟩

theorem ne_nil (h : IsInert chunk) : chunk ≠ [] := by
  obtain ⟨b, rest, rfl, -⟩ := h.exists_cons
  exact List.cons_ne_nil b rest

theorem escaped_pushAll (h : IsInert chunk) {context : LeftContext}
    (hcontext : context.escaped = false) : (context.pushAll chunk).escaped = false := by
  obtain ⟨escaped, dollar⟩ := context
  subst hcontext
  exact h.settled dollar

end IsInert

/-! ## Keys -/

theorem ne_of_isOrdinary {b : UInt8} (hb : isOrdinary b = true) {other : UInt8}
    (hother : isOrdinary other = false) : b ≠ other := by
  rintro rfl
  rw [hb] at hother
  cases hother

theorem isCopyable_of_isOrdinary {b : UInt8} (hb : isOrdinary b = true) :
    isCopyable b = true := by
  have hbackslash : b ≠ '\\' := ne_of_isOrdinary hb (by decide)
  have hdollar : b ≠ '$' := ne_of_isOrdinary hb (by decide)
  have hblank : b ≠ ' ' := ne_of_isOrdinary hb (by decide)
  simp [isCopyable, hbackslash, hdollar, hblank]

theorem push_of_isOrdinary {context : LeftContext} {b : UInt8} (hb : isOrdinary b = true) :
    context.push b = ⟨false, false⟩ := by
  have hbackslash : b ≠ '\\' := ne_of_isOrdinary hb (by decide)
  have hdollar : b ≠ '$' := ne_of_isOrdinary hb (by decide)
  simp [LeftContext.push, hbackslash, hdollar]

theorem pushAll_of_isOrdinary {context : LeftContext} {key : Text} (hkey : key ≠ [])
    (hordinary : ∀ b ∈ key, isOrdinary b = true) :
    context.pushAll key = ⟨false, false⟩ := by
  induction key generalizing context with
  | nil => exact absurd rfl hkey
  | cons b rest ih =>
      cases rest with
      | nil => exact push_of_isOrdinary (hordinary b List.mem_cons_self)
      | cons second rest =>
          exact ih (List.cons_ne_nil second rest)
            fun b hb => hordinary b (List.mem_cons_of_mem _ hb)

/-! ## The relation -/

def dollarGuard : Text := [('{' : UInt8), ('}' : UInt8)]

/--
`Rewrites context source target`: the second text is a rewriting of the first one,
where `context` is what stands before the second one.
-/
inductive Rewrites : LeftContext → Text → Text → Prop
  | nil (context : LeftContext) : Rewrites context [] []
  | copy (b : UInt8) {context : LeftContext} {source target : Text} :
      Rewrites (context.push b) source target → Rewrites context (b :: source) (b :: target)
  | replace {context : LeftContext} {key chunk source target : Text} :
      context.escaped = false → key ≠ [] → (∀ b ∈ key, isOrdinary b = true) → IsInert chunk →
        Rewrites (context.pushAll chunk) source target →
          Rewrites context (key ++ source) (chunk ++ target)
  | guard {context : LeftContext} {source target : Text} :
      context = ⟨false, true⟩ → Rewrites ⟨false, false⟩ source target →
        Rewrites context source (dollarGuard ++ target)

namespace Rewrites

variable {context : LeftContext} {source target : Text}

theorem copies (bytes : Text) (h : Rewrites (context.pushAll bytes) source target) :
    Rewrites context (bytes ++ source) (bytes ++ target) := by
  induction bytes generalizing context with
  | nil => exact h
  | cons b rest ih => exact .copy b (ih h)

theorem refl (context : LeftContext) (text : Text) : Rewrites context text text := by
  have hcopies := copies text (.nil (context.pushAll text))
  rwa [List.append_nil] at hcopies

theorem append {source' target' : Text} (h : Rewrites context source target)
    (h' : Rewrites (context.pushAll target) source' target') :
    Rewrites context (source ++ source') (target ++ target') := by
  induction h with
  | nil context => exact h'
  | copy b _ ih => exact .copy b (ih h')
  | replace hescaped hkey hordinary hinert _ ih =>
      rw [LeftContext.pushAll_append] at h'
      rw [List.append_assoc, List.append_assoc]
      exact .replace hescaped hkey hordinary hinert (ih h')
  | guard hcontext _ ih =>
      subst hcontext
      rw [LeftContext.pushAll_append] at h'
      rw [List.append_assoc]
      exact .guard rfl (ih h')

end Rewrites

end LatexIntegrity
