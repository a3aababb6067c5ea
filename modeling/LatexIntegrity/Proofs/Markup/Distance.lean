import Mathlib.Data.List.Basic
import LatexIntegrity.Markup.LeftContext

/-!
# Searches that keep the left context

A search finds the first place whose context and remaining text satisfy a
condition, so it fails exactly if no place does.
-/

namespace LatexIntegrity

namespace LeftContext

@[simp] theorem push_escaped (context : LeftContext) (b : UInt8) :
    (context.push b).escaped = (b == '\\' && !context.escaped) := rfl

@[simp] theorem push_dollar (context : LeftContext) (b : UInt8) :
    (context.push b).dollar = (b == '$') := rfl

theorem eq_mk {context : LeftContext} {escaped dollar : Bool}
    (hescaped : context.escaped = escaped) (hdollar : context.dollar = dollar) :
    context = ⟨escaped, dollar⟩ := by
  subst hescaped hdollar
  rfl

theorem after_take_add (text : Text) (offset length : Nat) :
    (after (text.take offset)).pushAll ((text.drop offset).take length) =
      after (text.take (offset + length)) := by
  rw [after, after, List.take_add, pushAll_append]

theorem pushAll_dollar (context : LeftContext) {bytes : Text} (hbytes : bytes ≠ []) :
    (context.pushAll bytes).dollar = (bytes.getLast? == some ('$' : UInt8)) := by
  rw [← List.dropLast_append_getLast hbytes, pushAll_append,
    List.getLast?_append_of_ne_nil _ (List.cons_ne_nil _ [])]
  rfl

theorem pushAll_congr {context other : LeftContext} {bytes : Text} (hbytes : bytes ≠ [])
    (h : other.escaped = context.escaped) : other.pushAll bytes = context.pushAll bytes := by
  obtain ⟨b, rest, rfl⟩ := List.exists_cons_of_ne_nil hbytes
  rw [pushAll_cons, pushAll_cons, push, push, h]

end LeftContext

variable {p : LeftContext → Text → Bool} {context : LeftContext}

theorem distance?_cons_of_pos {b : UInt8} {rest : Text} (h : p context (b :: rest) = true) :
    distance? p context (b :: rest) = some 0 := by
  rw [distance?, if_pos h]

theorem distance?_cons_of_neg {b : UInt8} {rest : Text}
    (h : p context (b :: rest) = false) :
    distance? p context (b :: rest) =
      (distance? p (context.push b) rest).map (· + 1) := by
  rw [distance?, h, if_neg Bool.false_ne_true]

theorem distance?_spec {text : Text} {distance : Nat}
    (h : distance? p context text = some distance) :
    distance < text.length ∧
      p (context.pushAll (text.take distance)) (text.drop distance) = true := by
  induction text generalizing context distance with
  | nil => simp [distance?] at h
  | cons b rest ih =>
      rw [distance?] at h
      split at h
      · next hp =>
          cases h
          simpa using hp
      · obtain ⟨shorter, hshorter, rfl⟩ := Option.map_eq_some_iff.mp h
        obtain ⟨hlt, hp⟩ := ih hshorter
        exact ⟨by simpa using hlt, by simpa using hp⟩

theorem eq_false_of_lt_distance? {text : Text} {distance offset : Nat}
    (h : distance? p context text = some distance) (hlt : offset < distance) :
    p (context.pushAll (text.take offset)) (text.drop offset) = false := by
  induction text generalizing context distance offset with
  | nil => simp [distance?] at h
  | cons b rest ih =>
      rw [distance?] at h
      split at h
      · cases h
        omega
      · next hp =>
          obtain ⟨shorter, hshorter, rfl⟩ := Option.map_eq_some_iff.mp h
          cases offset with
          | zero => simpa using hp
          | succ offset => simpa using ih hshorter (by omega)

theorem distance?_take_append {text : Text} {distance length : Nat}
    (h : distance? p context text = some distance) (hlt : distance < length) (other : Text)
    (hagree : ∀ offset ≤ distance, ∀ context,
      p context ((text.drop offset).take (length - offset) ++ other) =
        p context (text.drop offset)) :
    distance? p context (text.take length ++ other) = some distance := by
  induction text generalizing context distance length with
  | nil => simp [distance?] at h
  | cons b rest ih =>
      obtain ⟨length, rfl⟩ := Nat.exists_eq_succ_of_ne_zero (Nat.ne_zero_of_lt hlt)
      have hhere := hagree 0 (Nat.zero_le _) context
      rw [List.drop_zero, Nat.sub_zero] at hhere
      rw [List.take_succ_cons, List.cons_append] at hhere ⊢
      rw [distance?] at h
      split at h
      · next hp =>
          cases h
          exact distance?_cons_of_pos (hhere.trans hp)
      · next hp =>
          obtain ⟨shorter, hshorter, rfl⟩ := Option.map_eq_some_iff.mp h
          rw [distance?_cons_of_neg (hhere.trans (Bool.eq_false_iff.mpr hp)),
            ih hshorter (Nat.lt_of_succ_lt_succ hlt) fun offset hoffset context => by
              simpa using hagree (offset + 1) (Nat.succ_le_succ hoffset) context]
          rfl

theorem distance?_skip {before text : Text}
    (h : ∀ context suffix, suffix <:+ before → suffix ≠ [] → p context (suffix ++ text) = false) :
    distance? p context (before ++ text) =
      (distance? p (context.pushAll before) text).map (· + before.length) := by
  induction before generalizing context with
  | nil => simp
  | cons b rest ih =>
      have hhere := h context (b :: rest) List.suffix_rfl (List.cons_ne_nil b rest)
      rw [List.cons_append] at hhere ⊢
      rw [distance?_cons_of_neg hhere]
      refine (congrArg (Option.map (· + 1)) (ih fun context suffix hsuffix =>
        h context suffix (hsuffix.trans (List.suffix_cons b rest)))).trans ?_
      rw [Option.map_map]
      rfl

/-! ## Tokens that are not escaped -/

theorem unescapedDistance?_spec {token text : Text} {distance : Nat}
    (h : unescapedDistance? token context text = some distance) :
    (context.pushAll (text.take distance)).escaped = false ∧
      token <+: text.drop distance := by
  have hp := (distance?_spec h).2
  simpa using hp

theorem unescapedDistance?_add_le {token text : Text} {distance : Nat}
    (h : unescapedDistance? token context text = some distance) :
    distance + token.length ≤ text.length := by
  have hlt := (distance?_spec h).1
  have hfit := (unescapedDistance?_spec h).2.length_le
  rw [List.length_drop] at hfit
  omega

theorem isPrefixOf_take_append {token text : Text} {length : Nat}
    (hwidth : token.length ≤ length) (hfit : length ≤ text.length) (other : Text) :
    token.isPrefixOf (text.take length ++ other) = token.isPrefixOf text := by
  rw [Bool.eq_iff_iff, List.isPrefixOf_iff_prefix, List.isPrefixOf_iff_prefix]
  constructor
  · intro h
    have htake : token <+: text.take length :=
      List.prefix_of_prefix_length_le h (List.prefix_append _ _)
        (by rwa [List.length_take_of_le hfit])
    exact htake.trans (List.take_prefix _ _)
  · intro h
    exact (List.prefix_take_iff.mpr ⟨h, hwidth⟩).trans (List.prefix_append _ _)

theorem unescapedDistance?_take_append {token text : Text} {distance : Nat}
    (htoken : token ≠ []) (h : unescapedDistance? token context text = some distance)
    (other : Text) :
    unescapedDistance? token context (text.take (distance + token.length) ++ other) =
      some distance := by
  have hpos := List.length_pos_iff.mpr htoken
  have hfit := unescapedDistance?_add_le h
  refine distance?_take_append h (by omega) other fun offset hoffset context => ?_
  rw [isPrefixOf_take_append (by omega) (by rw [List.length_drop]; omega)]

variable {token text : Text} {b : UInt8}

theorem unescapedDistance?_cons_eq_none_iff :
    unescapedDistance? token context (b :: text) = none ↔
      ¬(context.escaped = false ∧ token <+: b :: text) ∧
        unescapedDistance? token (context.push b) text = none := by
  rw [unescapedDistance?, distance?]
  simp only [← List.isPrefixOf_iff_prefix]
  cases context.escaped <;> cases token.isPrefixOf (b :: text) <;> simp

theorem unescapedDistance?_cons_eq_some_succ_iff {distance : Nat} :
    unescapedDistance? token context (b :: text) = some (distance + 1) ↔
      ¬(context.escaped = false ∧ token <+: b :: text) ∧
        unescapedDistance? token (context.push b) text = some distance := by
  rw [unescapedDistance?, distance?]
  simp only [← List.isPrefixOf_iff_prefix]
  cases context.escaped <;> cases token.isPrefixOf (b :: text) <;> simp

theorem unescapedDistance?_cons_eq_some_zero_iff :
    unescapedDistance? token context (b :: text) = some 0 ↔
      context.escaped = false ∧ token <+: b :: text := by
  rw [unescapedDistance?, distance?]
  simp only [← List.isPrefixOf_iff_prefix]
  cases context.escaped <;> cases token.isPrefixOf (b :: text) <;> simp

theorem unescapedDistance?_context {other : LeftContext}
    (h : other.escaped = context.escaped) :
    unescapedDistance? token other text = unescapedDistance? token context text := by
  induction text generalizing context other with
  | nil => rfl
  | cons b rest ih =>
      have hpush : (other.push b).escaped = (context.push b).escaped := by simp [h]
      rw [unescapedDistance?, distance?, distance?, h]
      split
      · rfl
      · exact congrArg (Option.map (· + 1)) (ih hpush)

theorem unescapedDistance?_skip {before : Text}
    (h : ∀ suffix, suffix <:+ before → suffix ≠ [] → ¬token <+: suffix ++ text) :
    unescapedDistance? token context (before ++ text) =
      (unescapedDistance? token (context.pushAll before) text).map (· + before.length) := by
  refine distance?_skip fun context suffix hsuffix hne => ?_
  have hnot := h suffix hsuffix hne
  rw [← List.isPrefixOf_iff_prefix, Bool.not_eq_true] at hnot
  rw [hnot, Bool.and_false]

theorem unescapedDistance?_eq_none_of_length_lt (h : text.length < token.length) :
    unescapedDistance? token context text = none := by
  cases hdistance : unescapedDistance? token context text with
  | none => rfl
  | some distance =>
      have hfit := unescapedDistance?_add_le hdistance
      omega

theorem prefix_append_iff_of_length_le {first second : Text} (h : token.length ≤ first.length) :
    token <+: first ++ second ↔ token <+: first :=
  ⟨fun hstarts => List.prefix_of_prefix_length_le hstarts (List.prefix_append _ _) h,
    fun hstarts => hstarts.trans (List.prefix_append _ _)⟩

theorem unescapedDistance?_append_iff {before : Text} (htoken : token ≠ []) (rest : Text) :
    unescapedDistance? token context (before ++ (token ++ rest)) = some before.length ↔
      (context.pushAll before).escaped = false ∧
        unescapedDistance? token context (before ++ token.dropLast) = none := by
  induction before generalizing context with
  | nil =>
      obtain ⟨first, tail, rfl⟩ := List.exists_cons_of_ne_nil htoken
      have hshort : (first :: tail).dropLast.length < (first :: tail).length := by simp
      rw [List.nil_append, List.nil_append, List.cons_append, List.length_nil,
        unescapedDistance?_cons_eq_some_zero_iff,
        unescapedDistance?_eq_none_of_length_lt hshort, ← List.cons_append]
      simp
  | cons b before ih =>
      have hlong : token.length ≤ (b :: (before ++ token.dropLast)).length := by
        have hpos := List.length_pos_iff.mpr htoken
        simp only [List.length_cons, List.length_append, List.length_dropLast]
        omega
      have hsplit : b :: (before ++ (token ++ rest)) =
          b :: (before ++ token.dropLast) ++ (token.getLast htoken :: rest) := by
        conv_lhs => rw [← List.dropLast_append_getLast htoken]
        simp
      rw [List.cons_append, List.cons_append, List.length_cons,
        unescapedDistance?_cons_eq_some_succ_iff, ih,
        unescapedDistance?_cons_eq_none_iff, hsplit, prefix_append_iff_of_length_le hlong,
        LeftContext.pushAll_cons]
      exact and_left_comm

end LatexIntegrity
