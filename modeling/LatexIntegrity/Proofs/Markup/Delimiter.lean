import LatexIntegrity.Markup.Environment
import LatexIntegrity.Proofs.Markup.Distance
import LatexIntegrity.Proofs.Markup.Locality

/-!
# Reading delimiters

A delimiter is read where its source stands, and nowhere else.  Finding the
delimiter that closes a name is therefore a search for its source.
-/

namespace LatexIntegrity

def Environment.IsName (name : Text) : Prop :=
  name ≠ [] ∧ ∀ b ∈ name, Environment.isNameByte b = true

instance (name : Text) : Decidable (Environment.IsName name) :=
  decidable_of_iff (name ≠ [] ∧ name.all Environment.isNameByte = true)
    (by simp [Environment.IsName])

namespace DelimiterSide

theorem isLetter_of_mem_word {side : DelimiterSide} {b : UInt8} (h : b ∈ side.word) :
    Ascii.isLetter b = true := by
  have hall : ∀ side : DelimiterSide, side.word.all Ascii.isLetter = true := by
    intro side
    cases side <;> decide
  exact List.all_eq_true.mp (hall side) b h

end DelimiterSide

namespace DelimiterToken

theorem source_eq (token : DelimiterToken) :
    token.source =
      ('\\' : UInt8) ::
        (token.side.word ++ (('{' : UInt8) :: (token.name ++ [('}' : UInt8)]))) := by
  have hbackslash : Text.ofString "\\" = [('\\' : UInt8)] := by decide
  have hopen : Text.ofString "\x7b" = [('{' : UInt8)] := by decide
  have hclose : Text.ofString "\x7d" = [('}' : UInt8)] := by decide
  simp [source, hbackslash, hopen, hclose]

theorem source_ne_nil (token : DelimiterToken) : token.source ≠ [] := by
  simp [source_eq]

theorem side?_eq_some_iff {word : Text} {side : DelimiterSide} :
    side? word = some side ↔ word = side.word := by
  constructor
  · intro h
    rw [side?] at h
    split at h
    · next hword =>
        cases h
        exact beq_iff_eq.mp hword
    · split at h
      · next hword =>
          cases h
          exact beq_iff_eq.mp hword
      · cases h
  · rintro rfl
    cases side <;> decide

theorem name?_eq_some_iff {text name : Text} :
    name? text = some name ↔
      Environment.IsName name ∧ name ++ [('}' : UInt8)] <+: text := by
  simp only [name?]
  constructor
  · intro h
    split at h
    · cases h
    · next hne =>
        split at h
        · next hclose =>
            cases h
            refine ⟨⟨by simpa using hne, List.all_eq_true.mp List.all_takeWhile⟩, ?_⟩
            rw [drop_length_takeWhile] at hclose
            obtain ⟨rest, hrest⟩ := List.head?_eq_some_iff.mp hclose
            refine ⟨rest, ?_⟩
            rw [List.append_assoc, List.singleton_append, ← hrest,
              List.takeWhile_append_dropWhile]
        · cases h
  · rintro ⟨⟨hne, hname⟩, rest, rfl⟩
    have htake : (name ++ [('}' : UInt8)] ++ rest).takeWhile Environment.isNameByte =
        name := by
      rw [List.append_assoc, List.takeWhile_append_of_pos hname]
      simp [show Environment.isNameByte ('}' : UInt8) = false by decide]
    rw [htake, if_neg (by simpa using hne), List.append_assoc, List.drop_left,
      if_pos (by simp)]

def arguments (token : DelimiterToken) : Text :=
  ('{' : UInt8) :: (token.name ++ [('}' : UInt8)])

theorem source_eq_cons (token : DelimiterToken) :
    token.source = ('\\' : UInt8) :: (token.side.word ++ token.arguments) := source_eq token

theorem controlWord_source_append (token : DelimiterToken) (behind : Text) :
    controlWord (token.source ++ behind) = token.side.word ∧
      afterControlWord (token.source ++ behind) = token.arguments ++ behind := by
  have hbrace : ∀ b, (token.arguments ++ behind).head? = some b →
      Ascii.isLetter b = false := by
    intro b hb
    cases hb
    decide
  rw [source_eq_cons, List.cons_append, List.append_assoc]
  exact ⟨controlWord_cons_append (fun _ => DelimiterSide.isLetter_of_mem_word) hbrace,
    afterControlWord_cons_append (fun _ => DelimiterSide.isLetter_of_mem_word) hbrace⟩

theorem read?_eq_some_iff {text : Text} {token : DelimiterToken} :
    read? text = some token ↔ Environment.IsName token.name ∧ token.source <+: text := by
  constructor
  · intro h
    rw [read?] at h
    split at h
    · next side b rest hside hafter =>
        split at h
        · next hopen =>
            obtain ⟨name, hname, rfl⟩ := Option.map_eq_some_iff.mp h
            obtain ⟨hvalid, behind, hbehind⟩ := name?_eq_some_iff.mp hname
            have hword := side?_eq_some_iff.mp hside
            have hhead : text.head? = some ('\\' : UInt8) := by
              refine head?_eq_of_controlWord_ne_nil ?_
              rw [hword]
              cases side <;> decide
            refine ⟨hvalid, behind, ?_⟩
            rw [eq_cons_controlWord_append hhead, hafter, hword, ← hbehind,
              beq_iff_eq.mp hopen, source_eq]
            simp
        · cases h
    · cases h
  · rintro ⟨hvalid, behind, rfl⟩
    obtain ⟨hword, hafter⟩ := token.controlWord_source_append behind
    have hname := name?_eq_some_iff.mpr ⟨hvalid, List.prefix_append _ behind⟩
    rw [read?, hword, hafter, side?_eq_some_iff.mpr rfl, arguments, List.cons_append]
    simp only [beq_self_eq_true, if_true, hname, Option.map_some]

def isInnerByte (b : UInt8) : Bool := Environment.isNameByte b || b == '{' || b == '}'

theorem isInnerByte_of_mem_tail_source {token : DelimiterToken}
    (hname : Environment.IsName token.name) :
    ∀ b ∈ token.source.tail, isInnerByte b = true := by
  intro b hb
  simp only [source_eq, List.tail_cons, List.mem_append, List.mem_cons, List.not_mem_nil,
    or_false] at hb
  simp only [isInnerByte, Environment.isNameByte, Ascii.isAlphanumeric, Bool.or_eq_true,
    beq_iff_eq]
  rcases hb with hb | hb | hb | hb
  · simp [DelimiterSide.isLetter_of_mem_word hb]
  · simp [hb]
  · have hbyte := hname.2 b hb
    simp only [Environment.isNameByte, Ascii.isAlphanumeric, Bool.or_eq_true, beq_iff_eq] at hbyte
    simp [hbyte]
  · simp [hb]

theorem not_mem_tail_source {token : DelimiterToken} (hname : Environment.IsName token.name)
    {b : UInt8} (hb : isInnerByte b = false) : b ∉ token.source.tail := by
  intro hmem
  simp [isInnerByte_of_mem_tail_source hname b hmem] at hb

def head (token : DelimiterToken) : Text := ('\\' : UInt8) :: (token.side.word ++ [('{' : UInt8)])

theorem source_eq_concat (token : DelimiterToken) :
    token.source = (token.head ++ token.name) ++ [('}' : UInt8)] := by
  simp [source_eq, head]

theorem prefix_head_append_name {token : DelimiterToken} {part rest : Text}
    (h : part ++ rest = token.source) (hrest : rest ≠ []) : part <+: token.head ++ token.name := by
  have hdrop := congrArg List.dropLast (h.trans token.source_eq_concat)
  rw [List.dropLast_append_of_ne_nil hrest, List.dropLast_concat] at hdrop
  exact ⟨rest.dropLast, hdrop⟩

theorem eq_backslash_or_isInnerByte {token : DelimiterToken}
    (hname : Environment.IsName token.name) {b : UInt8} (hb : b ∈ token.head ++ token.name) :
    b = '\\' ∨ isInnerByte b = true ∧ b ≠ ('}' : UInt8) := by
  simp only [head, List.cons_append, List.mem_cons, List.mem_append, List.not_mem_nil,
    or_false] at hb
  rcases hb with hb | (hb | hb) | hb
  · exact .inl hb
  · right
    have hletter := DelimiterSide.isLetter_of_mem_word hb
    refine ⟨?_, by rintro rfl; exact absurd hletter (by decide)⟩
    simp [isInnerByte, Environment.isNameByte, Ascii.isAlphanumeric, hletter]
  · right
    subst hb
    decide
  · right
    have hbyte := hname.2 b hb
    refine ⟨by simp [isInnerByte, hbyte], ?_⟩
    rintro rfl
    exact absurd hbyte (by decide)

end DelimiterToken

theorem Environment.closer_eq_source (name : Text) :
    Environment.closer name = (DelimiterToken.mk .closing name).source := by
  have hcloser : Text.ofString "\\end\x7b" =
      Text.ofString "\\" ++ DelimiterSide.closing.word ++ Text.ofString "\x7b" := by decide
  simp [closer, DelimiterToken.source, hcloser]

theorem Environment.closingDistance?_eq {name : Text} (hname : Environment.IsName name) :
    Environment.closingDistance? name =
      unescapedDistance? (DelimiterToken.mk .closing name).source := by
  unfold closingDistance? unescapedDistance?
  congr 1
  funext context rest
  congr 1
  rw [Bool.eq_iff_iff, beq_iff_eq, DelimiterToken.read?_eq_some_iff,
    List.isPrefixOf_iff_prefix]
  exact and_iff_right hname

end LatexIntegrity
