import LatexIntegrity.Include.Command
import LatexIntegrity.Proofs.Markup.Distance
import LatexIntegrity.Proofs.Span.Tiling

/-!
# Where `\input` commands are found

The scan reads a command at every place, and goes on behind each one that it has read.
It therefore misses none but those that stand inside another one.
-/

namespace LatexIntegrity

namespace InputCommand

def at? (text : Text) (offset : Nat) : Option InputCommand :=
  (read? (.after (text.take offset)) (text.drop offset)).map fun (name, length) =>
    ⟨name, offset, offset + length⟩

variable {stop offset : Nat} {context : LeftContext} {text : Text}

theorem length_pos_of_read? {name : Text} {length : Nat}
    (h : read? context text = some (name, length)) : 0 < length := by
  unfold read? at h
  dsimp only at h
  split at h
  · cases h
  · simp only [Option.bind_eq_bind, Option.bind_eq_some_iff, Option.ite_none_left_eq_some,
      Option.some.injEq, Prod.mk.injEq] at h
    obtain ⟨argument, -, -, -, hlength⟩ := h
    omega

theorem read?_nil : read? context [] = none := by
  have hword : controlWord [] ≠ Text.ofString "input" := by decide
  simp [read?, hword]

theorem mem_listFrom {command : InputCommand} (h : command ∈ listFrom stop context offset text) :
    ∃ distance length, offset + distance < stop ∧
      read? (context.pushAll (text.take distance)) (text.drop distance) =
          some (command.name, length) ∧
        command.start = offset + distance ∧ command.stop = offset + distance + length := by
  fun_induction listFrom stop context offset text with
  | case1 => cases h
  | case2 => cases h
  | case3 context offset b rest hstop name length hread ih =>
      rcases List.mem_cons.mp h with rfl | h
      · exact ⟨0, length, by omega, hread, rfl, rfl⟩
      · obtain ⟨distance, width, hlt, hfound, hstart, hend⟩ := ih h
        refine ⟨length + distance, width, by omega, ?_, by omega, by omega⟩
        rwa [← List.drop_drop, List.take_add, LeftContext.pushAll_append,
          List.drop_cons (length_pos_of_read? hread)]
  | case4 context offset b rest hstop hread ih =>
      obtain ⟨distance, width, hlt, hfound, hstart, hend⟩ := ih h
      exact ⟨distance + 1, width, by omega, hfound, by omega, by omega⟩

theorem mem_listFrom_or (stop : Nat) (context : LeftContext) (offset : Nat) (text : Text) :
    ∀ distance name length, offset + distance < stop →
      read? (context.pushAll (text.take distance)) (text.drop distance) = some (name, length) →
      (⟨name, offset + distance, offset + distance + length⟩ : InputCommand) ∈
          listFrom stop context offset text ∨
        ∃ command ∈ listFrom stop context offset text,
          command.start < offset + distance ∧ offset + distance < command.stop := by
  fun_induction listFrom stop context offset text with
  | case1 =>
      intro distance name length _ hread
      simp [read?_nil] at hread
  | case2 =>
      intro distance name length hlt
      omega
  | case3 context offset b rest hstop name length hread ih =>
      intro distance other width hlt hfound
      by_cases hinside : distance < length
      · cases distance with
        | zero =>
            obtain ⟨rfl, rfl⟩ := Prod.mk.inj (Option.some.inj (hread.symm.trans hfound))
            exact .inl List.mem_cons_self
        | succ distance =>
            refine .inr ⟨_, List.mem_cons_self, ?_, ?_⟩ <;> simp only <;> omega
      · obtain ⟨behind, rfl⟩ := Nat.exists_eq_add_of_le (Nat.not_lt.mp hinside)
        rw [← List.drop_drop, List.take_add, LeftContext.pushAll_append,
          List.drop_cons (length_pos_of_read? hread)] at hfound
        rw [← Nat.add_assoc]
        refine (ih behind other width (by omega) hfound).imp (List.mem_cons_of_mem _) ?_
        exact fun ⟨command, hcommand, hbounds⟩ =>
          ⟨command, List.mem_cons_of_mem _ hcommand, hbounds⟩
  | case4 context offset b rest hstop hread ih =>
      intro distance name length hlt hfound
      cases distance with
      | zero => simp [hread] at hfound
      | succ distance =>
          have hrest := ih distance name length (by omega) hfound
          rwa [Nat.add_assoc, Nat.add_comm 1] at hrest

theorem at?_eq_some_iff {command : InputCommand} :
    at? text offset = some command ↔ ∃ length,
      read? (.after (text.take offset)) (text.drop offset) = some (command.name, length) ∧
        command.start = offset ∧ command.stop = offset + length := by
  obtain ⟨name, start, stop⟩ := command
  simp only [at?, Option.map_eq_some_iff, Prod.exists, mk.injEq]
  constructor
  · rintro ⟨name, length, hread, rfl, rfl, rfl⟩
    exact ⟨length, hread, rfl, rfl⟩
  · rintro ⟨length, hread, rfl, rfl⟩
    exact ⟨name, length, hread, rfl, rfl, rfl⟩

theorem of_mem_inputCommands {command : InputCommand} (h : command ∈ inputCommands text) :
    at? text command.start = some command ∧
      ∃ span ∈ segment text, isCounted span = true ∧ span.contains command.start = true := by
  simp only [inputCommands, List.mem_flatMap, List.mem_filter] at h
  obtain ⟨span, ⟨hspan, hcounted⟩, hcommand⟩ := h
  obtain ⟨distance, length, hlt, hread, hstart, hstop⟩ := mem_listFrom hcommand
  rw [LeftContext.after_take_add, List.drop_drop, ← hstart] at hread
  refine ⟨at?_eq_some_iff.mpr ⟨length, hread, rfl, by omega⟩, span, hspan, hcounted, ?_⟩
  rw [Span.contains_iff]
  omega

theorem mem_inputCommands_or {span : Span} {command : InputCommand} (hspan : span ∈ segment text)
    (hcounted : isCounted span = true) (hoffset : span.contains offset = true)
    (hread : at? text offset = some command) :
    command ∈ inputCommands text ∨
      ∃ other ∈ inputCommands text, other.start < offset ∧ offset < other.stop := by
  have hlist : ∀ {command}, command ∈ listIn text span → command ∈ inputCommands text := by
    intro command hcommand
    simp only [inputCommands, List.mem_flatMap, List.mem_filter]
    exact ⟨span, ⟨hspan, hcounted⟩, hcommand⟩
  rw [Span.contains_iff] at hoffset
  obtain ⟨length, hread, hstart, hstop⟩ := at?_eq_some_iff.mp hread
  obtain ⟨distance, rfl⟩ := Nat.exists_eq_add_of_le hoffset.1
  rw [← LeftContext.after_take_add, ← List.drop_drop] at hread
  rcases mem_listFrom_or span.stop _ span.start _ distance _ length hoffset.2 hread with h | h
  · left
    apply hlist
    obtain ⟨name, start, stop⟩ := command
    simp only at hstart hstop h
    rwa [hstart, hstop]
  · obtain ⟨other, hother, hbounds⟩ := h
    exact .inr ⟨other, hlist hother, hbounds⟩

end InputCommand

end LatexIntegrity
