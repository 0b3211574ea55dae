import KeyIndexMachine.Proofs.Assembly.LineSplitting
import KeyIndexMachine.Proofs.Assembly.TokenMeaning

/-!
# What is assembled

The assembler accepts exactly the lines of the grammar, and gives each the instruction that the
grammar says. A line of the grammar has the shape of a line and parts that mean what they should;
conversely, a line that splits into parts with a meaning is put together from texts of the grammar.
White space of every kind may stand around a line, and since no line of the grammar has any at its
ends, trimming takes away just that.
-/
namespace KeyIndexMachine

namespace Assembly

/-- Characters that operands are made of. -/
def isOperandChar (c : Char) : Bool := isTokenChar c && !Text.isWhiteSpace c

theorem isOperandChar_iff {c : Char} :
    isOperandChar c = true ↔ isTokenChar c = true ∧ Text.isWhiteSpace c = false := by
  simp [isOperandChar]

theorem register_chars (r : Register) : ∀ c ∈ r.name.toList, isOperandChar c = true := by
  cases r <;> exact List.all_eq_true.mp (by decide)

theorem HexDigit.isOperandChar {d : Char} {n : Nat} (h : HexDigit d n) :
    isOperandChar d = true := by
  have ht : ∀ n < 16, Assembly.isOperandChar (Nat.digitChar n) = true ∧
      Assembly.isOperandChar (Nat.digitChar n).toUpper = true := by decide
  obtain ⟨hn, rfl | rfl⟩ := h
  · exact (ht n hn).1
  · exact (ht n hn).2

theorem OperandText.chars {cs : List Char} {o : Operand} (h : OperandText cs o) :
    ∀ c ∈ cs, isOperandChar c = true := by
  have hk : ∀ c ∈ "hashtable[".toList ++ "/".toList ++ "]".toList, isOperandChar c = true :=
    List.all_eq_true.mp (by decide)
  intro c hc
  cases h with
  | register r => exact register_chars r c hc
  | constant h _ =>
      rcases List.mem_cons.mp hc with rfl | hc
      · decide
      · rw [List.mem_singleton] at hc
        exact hc ▸ h.isOperandChar
  | @indirect k x hz hp =>
      simp only [List.mem_append, or_assoc] at hc hk
      rcases hc with hc | hc | hc | hc | hc
      · exact hk c (.inl hc)
      · exact register_chars k c hc
      · exact hk c (.inr (.inl hc))
      · exact register_chars x c hc
      · exact hk c (.inr (.inr hc))

theorem OperandText.ne_nil {cs : List Char} {o : Operand} (h : OperandText cs o) : cs ≠ [] := by
  cases h with
  | register r => exact (name_register r).1
  | _ => simp

theorem OperandText.token {cs : List Char} {o : Operand} (h : OperandText cs o) : Token cs :=
  ⟨h.ne_nil, fun c hc => (isOperandChar_iff.mp (h.chars c hc)).1⟩

theorem letters_operation (o : Operation) : Letters o.name.toList := by
  cases o <;> exact ⟨by decide, List.all_eq_true.mp (by decide)⟩

theorem letters_mov : Letters "mov".toList := ⟨by decide, List.all_eq_true.mp (by decide)⟩

theorem PartsText.ne_nil {cs a symbol b : List Char} (h : PartsText cs a symbol b) : cs ≠ [] := by
  obtain ⟨-, ha, -⟩ := h
  simp [ha.1]

/-- Every character of a conditional belongs to a name, a comparison or a blank. -/
theorem PartsText.not_mem {cs a symbol b : List Char} (h : PartsText cs a symbol b) {e : Char}
    (hb : isBlank e = false) (hn : isNameChar e = false) (hc : isComparisonChar e = false)
    (hd : isHexDigit e = false) (hq : e ≠ '?') : e ∉ cs := by
  have hname : ∀ {s : List Char}, Name s → e ∉ s := fun hs he =>
    absurd (hs.2 e he) (by simp [hn])
  have hoperator : ∀ {s : List Char}, Operator s → e ∉ s := by
    rintro s (⟨d, hx, rfl⟩ | ⟨-, hs⟩) he
    · rcases List.mem_cons.mp he with he | he
      · exact hq he
      · rw [List.mem_singleton] at he
        subst he
        rw [hd] at hx
        cases hx
    · exact absurd (hs e he) (by simp [hc])
  obtain ⟨hs, ha, ht, ho, hu, hn', hv⟩ := h
  simp [hs.not_mem hb, hname ha, ht.not_mem hb, hoperator ho, hu.not_mem hb, hname hn',
    hv.not_mem hb]

theorem ConditionText.not_mem {cs : List Char} {c : Condition} (h : ConditionText cs c) {e : Char}
    (hb : isBlank e = false) (hn : isNameChar e = false) (hc : isComparisonChar e = false)
    (hd : isHexDigit e = false) (hq : e ≠ '?') : e ∉ cs := by
  obtain ⟨symbol, hp, -⟩ := condition_eq_ok_iff.mp (condition_eq_ok_iff_conditionText.mpr h)
  exact hp.not_mem hb hn hc hd hq

theorem bind_eq_ok_iff {α β : Type} {x : Except AssemblyError α}
    {f : α → Except AssemblyError β} {b : β} :
    (x >>= f) = .ok b ↔ ∃ a, x = .ok a ∧ f a = .ok b := by
  cases x <;> simp [bind, Except.bind]

/-- A token denotes at most one operand, since it is read as one. -/
theorem OperandText.unique {cs : List Char} {o p : Operand} (ho : OperandText cs o)
    (hp : OperandText cs p) : o = p := by
  have h := (operand_eq_ok_iff.mpr ho).symm.trans (operand_eq_ok_iff.mpr hp)
  exact Except.ok.inj h

theorem shape_eq_ok_iff {l : Line} {s : Shape} :
    l.shape = .ok s ↔
      (l.mnemonic = s.operation.name.toList ∧
        l.operands = [s.destination, s.sourceA, s.sourceB]) ∨
      (l.mnemonic = "mov".toList ∧ l.operands = [s.destination, s.sourceB] ∧
        s.operation = .add ∧ s.sourceA = Register.zero.name.toList) := by
  have hm : ∀ o : Operation, o.name ≠ "mov" := by
    intro o
    cases o <;> decide
  constructor
  · intro h
    simp only [Line.shape] at h
    split at h
    · rename_i hl
      split at h
      · rename_i d b ho
        cases h
        exact .inr ⟨(eq_ofList_iff.mp hl.symm).symm, ho, rfl, rfl⟩
      · cases h
    · split at h
      · cases h
      · rename_i o hn
        rw [Operation.ofName?_eq_some_iff, eq_ofList_iff] at hn
        split at h
        · rename_i d a b ho
          cases h
          exact .inl ⟨hn.symm, ho⟩
        · cases h
  · rintro (⟨hn, ho⟩ | ⟨hn, ho, hs, hz⟩)
    · have hf : Operation.ofName? s.operation.name = some s.operation :=
        Operation.ofName?_eq_some_iff.mpr rfl
      simp [Line.shape, hn, ho, hm, hf]
    · obtain ⟨o, d, a, b⟩ := s
      simp only at ho hs hz
      subst hs hz
      simp [Line.shape, hn, ho]

theorem instruction_eq_ok_iff {l : Line} {i : Instruction} :
    l.instruction = .ok i ↔ l.conditionOf = .ok i.condition ∧ ∃ s : Shape, l.shape = .ok s ∧
      i.opcode = s.operation.opcode ∧ DestinationText s.destination i.destination ∧
      OperandText s.sourceA i.sourceA ∧ OperandText s.sourceB i.sourceB := by
  simp only [Line.instruction, bind_eq_ok_iff, destination_eq_ok_iff, operand_eq_ok_iff]
  constructor
  · rintro ⟨c, hc, s, hs, d, hd, a, ha, b, hb, hi⟩
    cases hi
    exact ⟨hc, s, hs, rfl, hd, ha, hb⟩
  · rintro ⟨hc, s, hs, ho, hd, ha, hb⟩
    obtain ⟨c, o, d, a, b⟩ := i
    cases ho
    exact ⟨c, hc, s, hs, d, hd, a, ha, b, hb, rfl⟩

/-- The splitter stops at the first closing parenthesis, and no conditional has one inside. -/
theorem conditionalText_iff {front : List Char} {c : Condition} (mnemonic : List Char)
    (tokens : List (List Char)) : ConditionalText front c ↔
      ∃ inside, FrontText front inside ∧ Line.conditionOf ⟨inside, mnemonic, tokens⟩ = .ok c := by
  constructor
  · intro h
    cases h with
    | always => exact ⟨none, .none, rfl⟩
    | @given cs s c hc hs =>
        have hr := condition_eq_ok_iff_conditionText.mpr hc
        obtain ⟨symbol, hp, -⟩ := condition_eq_ok_iff.mp hr
        have hf := FrontText.some hp.ne_nil (hp.not_mem (e := ')') (by decide) (by decide)
          (by decide) (by decide) (by decide)) hs
        exact ⟨some cs, by simpa [conditionalOpening] using hf, hr⟩
  · rintro ⟨inside, hf, hc⟩
    cases hf with
    | none =>
        cases hc
        exact .always
    | @some cs s hne hp hs =>
        have h := ConditionalText.given (condition_eq_ok_iff_conditionText.mp hc) hs
        simpa [conditionalOpening] using h

/-- The number of operands that the mnemonic takes fixes how far their text unfolds. -/
theorem bodyText_iff {body : List Char} {o : Operation} {D A B : Operand}
    (inside : Option (List Char)) : BodyText body o D A B ↔
      ∃ mnemonic cs tokens, body = mnemonic ++ cs ∧ Letters mnemonic ∧ OperandsText cs tokens ∧
        ∃ s : Shape, Line.shape ⟨inside, mnemonic, tokens⟩ = .ok s ∧ s.operation = o ∧
          DestinationText s.destination D ∧ OperandText s.sourceA A ∧ OperandText s.sourceB B := by
  simp only [shape_eq_ok_iff]
  constructor
  · intro h
    cases h with
    | @operation s t u v w d a b _ _ _ o hs hne hd ht hu ha hv hw hb =>
        have ho := OperandsText.some hs hne hd.1.token
          (.cons ht hu ha.token (.cons hv hw hb.token .nil))
        exact ⟨o.name.toList, _, _, by simp, letters_operation o, ho, ⟨o, d, a, b⟩,
          .inl ⟨rfl, rfl⟩, rfl, hd, ha, hb⟩
    | @mov s t u d b _ _ hs hne hd ht hu hb =>
        have ho := OperandsText.some hs hne hd.1.token (.cons ht hu hb.token .nil)
        exact ⟨"mov".toList, _, _, by simp, letters_mov, ho, ⟨.add, d, _, b⟩,
          .inr ⟨rfl, rfl, rfl, rfl⟩, rfl, hd, .register .zero, hb⟩
  · rintro ⟨mnemonic, cs, tokens, rfl, -, ho, ⟨o, d, a, b⟩, hsh, rfl, hd, ha, hb⟩
    rcases hsh with ⟨rfl, rfl⟩ | ⟨rfl, rfl, rfl, rfl⟩
    · cases ho with
      | some hs hne _ hm =>
          cases hm with
          | cons ht hu _ hm =>
              cases hm with
              | cons hv hw _ hm =>
                  cases hm
                  simpa using BodyText.operation o hs hne hd ht hu ha hv hw hb
    · cases OperandText.unique ha (.register .zero)
      cases ho with
      | some hs hne _ hm =>
          cases hm with
          | cons ht hu _ hm =>
              cases hm
              simpa using BodyText.mov hs hne hd ht hu hb

/-- The grammar is the shape of a line with a meaning for its parts. -/
theorem instructionText_iff {cs : List Char} {i : Instruction} :
    InstructionText cs i ↔ ∃ l, LineText cs l ∧ l.instruction = .ok i := by
  constructor
  · rintro ⟨hc, hb⟩
    rename_i front body c o D A B
    obtain ⟨mnemonic, cs, tokens, rfl, hl, ho, s, hs, rfl, hd, ha, hb⟩ :=
      (bodyText_iff none).mp hb
    obtain ⟨inside, hf, hc⟩ := (conditionalText_iff mnemonic tokens).mp hc
    exact ⟨_, .intro hf hl ho, instruction_eq_ok_iff.mpr ⟨hc, s, hs, rfl, hd, ha, hb⟩⟩
  · rintro ⟨l, ⟨hf, hl, ho⟩, hi⟩
    obtain ⟨hc, s, hs, hop, hd, ha, hb⟩ := instruction_eq_ok_iff.mp hi
    obtain ⟨c, o, D, A, B⟩ := i
    cases hop
    exact .intro ((conditionalText_iff _ _).mpr ⟨_, hf, hc⟩)
      ((bodyText_iff _).mpr ⟨_, _, _, rfl, hl, ho, s, hs, rfl, hd, ha, hb⟩)

theorem BodyText.starts {body : List Char} {o : Operation} {D A B : Operand}
    (h : BodyText body o D A B) : Stops Text.isWhiteSpace body := by
  cases h with
  | operation o =>
      simp only [List.append_assoc]
      refine stops_of_ne_nil (letters_operation o).1 (forall_of_any_eq_false ?_)
      cases o <;> decide
  | mov =>
      simp only [List.append_assoc]
      exact stops_of_ne_nil letters_mov.1 (forall_of_any_eq_false (by decide))

theorem BodyText.ends {body : List Char} {o : Operation} {D A B : Operand}
    (h : BodyText body o D A B) : ∃ cs b, body = cs ++ b ∧ OperandText b B := by
  cases h with
  | operation o _ _ _ _ _ _ _ _ hb => exact ⟨_, _, rfl, hb⟩
  | mov _ _ _ _ _ hb => exact ⟨_, _, rfl, hb⟩

theorem ConditionalText.stops_append {front body : List Char} {c : Condition}
    (h : ConditionalText front c) (hb : Stops Text.isWhiteSpace body) :
    Stops Text.isWhiteSpace (front ++ body) := by
  cases h with
  | always => exact hb
  | given _ _ =>
      simp only [List.append_assoc]
      exact stops_of_ne_nil (by decide) (forall_of_any_eq_false (by decide))

/-- A line that ends with an operand is what is left of it when it is trimmed. -/
theorem trim_append_operand {l r front body b : List Char} {c : Condition} {o : Operand}
    (hl : WhiteSpace l) (hr : WhiteSpace r) (hc : ConditionalText front c)
    (hs : Stops Text.isWhiteSpace (body ++ b)) (hb : OperandText b o) :
    Text.trim (l ++ (front ++ (body ++ b) ++ r)) = front ++ (body ++ b) := by
  have hend : Stops Text.isWhiteSpace (front ++ (body ++ b)).reverse := by
    rw [← List.append_assoc, List.reverse_append]
    refine stops_of_ne_nil (by simp [hb.ne_nil]) ?_
    intro d hd
    exact (isOperandChar_iff.mp (hb.chars d (List.mem_reverse.mp hd))).2
  exact trim_append hl hr (hc.stops_append hs) hend (by simp [hb.ne_nil])

theorem InstructionText.trim {l cs r : List Char} {i : Instruction} (h : InstructionText cs i)
    (hl : WhiteSpace l) (hr : WhiteSpace r) : Text.trim (l ++ (cs ++ r)) = cs := by
  obtain ⟨hc, hb⟩ := h
  have hs := hb.starts
  obtain ⟨body, b, rfl, ho⟩ := hb.ends
  exact trim_append_operand hl hr hc hs ho

theorem instruction_append {l cs r : List Char} {i : Instruction} (hl : WhiteSpace l)
    (h : InstructionText cs i) (hr : WhiteSpace r) : instruction (l ++ (cs ++ r)) = .ok i := by
  obtain ⟨line, ht, hi⟩ := instructionText_iff.mp h
  have hs := ofTrimmed_append ht blanks_nil
  rw [List.append_nil] at hs
  rw [instruction, bind_eq_ok_iff]
  exact ⟨line, by rw [Line.ofChars, h.trim hl hr, hs], hi⟩

/-- Blanks that the splitter leaves at the end count as white space around the line. -/
theorem instructionText_of_instruction {cs : List Char} {i : Instruction}
    (h : instruction cs = .ok i) :
    ∃ l body r, cs = l ++ (body ++ r) ∧ WhiteSpace l ∧ WhiteSpace r ∧ InstructionText body i := by
  rw [instruction, bind_eq_ok_iff] at h
  obtain ⟨line, hs, hi⟩ := h
  obtain ⟨body, e, ht, he, hline⟩ := ofTrimmed_eq_ok_iff.mp hs
  obtain ⟨l, r, hcs, hl, hr⟩ := exists_trim cs
  refine ⟨l, body, e ++ r, ?_, hl, ?_, instructionText_iff.mpr ⟨line, hline, hi⟩⟩
  · rw [hcs, ht, List.append_assoc]
  · intro c hc
    rcases List.mem_append.mp hc with hc | hc
    · exact he.whiteSpace c hc
    · exact hr c hc

end Assembly

open Assembly in
/-- A line is assembled to an instruction exactly when, up to white space around it, it is a text
of the grammar that denotes this instruction. -/
theorem Instruction.ofLine_eq_ok_iff (line : String) (i : Instruction) :
    Instruction.ofLine line = .ok i ↔
      ∃ l body r, line.toList = l ++ (body ++ r) ∧ WhiteSpace l ∧ WhiteSpace r ∧
        InstructionText body i := by
  constructor
  · exact instructionText_of_instruction
  · rintro ⟨l, body, r, hline, hl, hr, h⟩
    rw [Instruction.ofLine, hline]
    exact instruction_append hl h hr

end KeyIndexMachine
