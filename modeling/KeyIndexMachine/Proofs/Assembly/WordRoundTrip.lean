import KeyIndexMachine.Proofs.Assembly.Acceptance
import KeyIndexMachine.Proofs.Normalization

/-!
# Words through their text and back

The text of a word is a line of the grammar whenever its opcode is that of an operation and its
destination can be written to, and then it is assembled to the normal form of the word. In the two
other cases the assembler stops at what cannot be read back: at the constant in the place of the
destination, or at the bracket in `unknown[`, where it expects the blank in front of an operand.
The conditional in front is the same in all three cases.
-/
namespace KeyIndexMachine

namespace Assembly

theorem operandText_constant {x : Nibble} (hx : x ≠ 0) :
    OperandText (Operand.constant (x.setWidth 8)).text.toList
      (Operand.constant (x.setWidth 8)).spelled := by
  have hn : (x.setWidth 8).toNat = x.toNat := by
    rw [BitVec.toNat_setWidth]
    omega
  have hz : x.toNat ≠ 0 := fun h => hx (BitVec.eq_of_toNat_eq h)
  have hv : x.setWidth 8 ≠ 0#8 := by
    intro h
    rw [← hn, h] at hz
    exact hz rfl
  have h := OperandText.constant (d := Nat.digitChar x.toNat) ⟨x.isLt, .inl rfl⟩ hz
  simpa [Operand.text, Operand.spelled, hv, hn, hexNat_of_lt x.isLt] using h

/-- The constant zero is spelled `$0`, which is a register. -/
theorem operandText_ofNibbles (k x : Nibble) :
    OperandText (Operand.ofNibbles k x).text.toList (Operand.ofNibbles k x).spelled := by
  have hr : ∀ (n : Nibble) (r : Register), Register.ofNibble n = r → n = r.nibble := by
    intro n r h
    rw [← h, Register.nibble_ofNibble]
  by_cases hk : k = 0
  · rw [Operand.ofNibbles, if_pos hk]
    exact .register _
  · by_cases hc : k = 8
    · rw [Operand.ofNibbles, if_neg hk, if_pos hc]
      by_cases hx : x = 0
      · subst hx
        exact .register .zero
      · exact operandText_constant hx
    · rw [Operand.ofNibbles, if_neg hk, if_neg hc]
      have hz : Register.ofNibble k ≠ .zero := fun h => hk (hr k _ h)
      have hp : Register.ofNibble k ≠ .px := fun h => hc (hr k _ h)
      have h := OperandText.indirect (Register.ofNibble x) hz hp
      simpa only [Operand.text, String.toList_append, Operand.spelled] using h

theorem comparisonText_symbol {c : Comparison} (h : c ≠ .always) :
    ComparisonText c.symbol.toList c := by
  cases c with
  | always => exact absurd rfl h
  | reserved n =>
      have hn : n.val + 3 < 16 := by omega
      have h : ComparisonText ['?', Nat.digitChar (n.val + 3)] (.reserved n) :=
        .reserved n ⟨hn, .inl rfl⟩
      simpa [Comparison.symbol, hexNat_of_lt hn] using h
  | less => exact .less
  | lessEqual => exact .lessEqual
  | equal => exact .equal
  | notEqual => exact .notEqual

end Assembly

namespace Instruction

open Assembly

/-- The conditional in front of the text of an instruction, with the blank behind it. -/
def front (i : Instruction) : String := if i.isConditional then i.condition.text ++ " " else ""

theorem text_eq_front_append (i : Instruction) : i.text = i.front ++ i.body := by
  rw [text, front]
  split
  · rfl
  · simp

theorem conditionalText_front (i : Instruction) :
    ConditionalText i.front.toList i.condition.spelled := by
  by_cases hc : i.condition.comparison = .always
  · have hi : i.isConditional = false := by simp [isConditional, hc]
    rw [front, hi, Condition.spelled, if_pos hc]
    exact .always
  · have hi : i.isConditional = true := by simp [isConditional, hc]
    have h := ConditionalText.given (.intro i.condition.a i.condition.b blanks_nil blanks_nil
      blanks_nil blanks_nil (comparisonText_symbol hc)) blanks_space
    rw [front, hi, Condition.spelled, if_neg hc]
    simpa [Condition.text] using h

/-- Each operand has a text that is read back. -/
def Spellable (i : Instruction) : Prop :=
  ∀ o ∈ [i.destination, i.sourceA, i.sourceB], OperandText o.text.toList o.spelled

theorem spellable_ofWord (w : Word) : (ofWord w).Spellable := by
  intro o ho
  simp only [List.mem_cons, List.not_mem_nil, or_false] at ho
  rcases ho with rfl | rfl | rfl <;> exact operandText_ofNibbles _ _

/-- The body of an instruction that is not unknown splits into the mnemonic and the operands. -/
theorem exists_split_body {i : Instruction} {o : Operation} (hs : i.Spellable)
    (ho : i.operation? = some o) : ∃ mnemonic cs tokens, i.body.toList = mnemonic ++ cs ∧
      Letters mnemonic ∧ OperandsText cs tokens ∧ ∀ inside,
        Line.shape ⟨inside, mnemonic, tokens⟩ = .ok ⟨o, i.destination.text.toList,
          i.sourceA.text.toList, i.sourceB.text.toList⟩ := by
  have hd := (hs i.destination (by simp)).token
  have ha := (hs i.sourceA (by simp)).token
  have hb := (hs i.sourceB (by simp)).token
  by_cases hm : i.isMov = true
  · have hi : i.operation? = some .add ∧ i.sourceA = .register .zero := by
      simpa [isMov] using hm
    have hops := OperandsText.some blanks_space (by simp) hd
      (.cons blanks_nil blanks_space hb .nil)
    refine ⟨"mov".toList, _, _, ?_, letters_mov, hops, ?_⟩
    · rw [body, if_pos hm]
      simp
    · intro inside
      cases ho.symm.trans hi.1
      exact shape_eq_ok_iff.mpr (.inr ⟨rfl, rfl, rfl, by rw [hi.2]; rfl⟩)
  · have hops := OperandsText.some blanks_space (by simp) hd
      (.cons blanks_nil blanks_space ha (.cons blanks_nil blanks_space hb .nil))
    refine ⟨o.name.toList, _, _, ?_, letters_operation o, hops, ?_⟩
    · rw [body, if_neg hm, ho]
      simp
    · intro inside
      exact shape_eq_ok_iff.mpr (.inl ⟨rfl, rfl⟩)

theorem stops_body (i : Instruction) : Stops Text.isWhiteSpace i.body.toList := by
  have hh : ∀ c ∈ ['m', 'u', 'a', 's'], Text.isWhiteSpace c = false :=
    forall_of_any_eq_false (by decide)
  unfold body
  split
  · simpa using hh 'm' (by simp)
  · split
    · rename_i o _
      cases o with
      | add => simpa [Operation.name] using hh 'a' (by simp)
      | sub => simpa [Operation.name] using hh 's' (by simp)
    · simpa using hh 'u' (by simp)

theorem exists_append_sourceB (i : Instruction) : ∃ s, i.body = s ++ i.sourceB.text := by
  unfold body
  split
  · exact ⟨_, rfl⟩
  · split
    · exact ⟨_, rfl⟩
    · exact ⟨_, rfl⟩

theorem trim_text {i : Instruction} (hs : i.Spellable) :
    Text.trim i.text.toList = i.text.toList := by
  have hw : WhiteSpace [] := by simp [WhiteSpace]
  have hb := hs i.sourceB (by simp)
  obtain ⟨s, hbody⟩ := i.exists_append_sourceB
  have hstops := i.stops_body
  rw [hbody, String.toList_append] at hstops
  have ht : i.text.toList = i.front.toList ++ (s.toList ++ i.sourceB.text.toList) := by
    rw [text_eq_front_append, hbody, String.toList_append, String.toList_append]
  have h := trim_append_operand hw hw i.conditionalText_front hstops hb
  rwa [← ht, List.nil_append, List.append_nil] at h

/-- Assembling the text of an instruction with an operation only depends on whether its destination
can be written to. -/
theorem instruction_text {i : Instruction} {o : Operation} (hs : i.Spellable)
    (ho : i.operation? = some o) :
    Assembly.instruction i.text.toList =
      (Assembly.destination i.destination.text.toList).map fun d =>
        { i.spelled with destination := d } := by
  obtain ⟨mnemonic, cs, tokens, hbody, hm, hops, hshape⟩ := exists_split_body hs ho
  obtain ⟨inside, hf, hc⟩ := (conditionalText_iff mnemonic tokens).mp i.conditionalText_front
  have hline := ofTrimmed_append (.intro hf hm hops) blanks_nil
  have htext : i.text.toList = i.front.toList ++ (mnemonic ++ cs) ++ [] := by
    rw [text_eq_front_append, String.toList_append, hbody, List.append_nil]
  have hop : o.opcode = i.opcode := Operation.ofOpcode?_eq_some_iff.mp ho
  have ha := operand_eq_ok_iff.mpr (hs i.sourceA (by simp))
  have hb := operand_eq_ok_iff.mpr (hs i.sourceB (by simp))
  rw [Assembly.instruction, Line.ofChars, trim_text hs, htext, hline]
  simp only [bind, Except.bind, Line.instruction, hc, hshape, ha, hb]
  cases Assembly.destination i.destination.text.toList with
  | error e => rfl
  | ok d => simp [Except.map, when, unconditional, hop, spelled, pure, Except.pure]

theorem destination_text {o : Operand} (h : OperandText o.text.toList o.spelled) :
    Assembly.destination o.text.toList =
      if o.spelled.isConstant then .error (.illegalWrite o.text) else .ok o.spelled := by
  rw [Assembly.destination, operand_eq_ok_iff.mpr h, String.ofList_toList]

theorem isConstant_spelled_ofNibbles : ∀ k x : Nibble,
    (Operand.ofNibbles k x).spelled.isConstant = true ↔ k = 8 ∧ x ≠ 0 := by
  decide

theorem isSome_operation?_ofWord (w : Word) :
    (ofWord w).operation?.isSome = true ↔ w.HasOperation := by
  have hb : ∀ b : Byte, (Operation.ofOpcode? b).isSome = true ↔
      b.setWidth 64 = 0xFF#64 ∨ b.setWidth 64 = 0xFE#64 := by decide
  rw [operation?, ofWord, hb, Field.setWidth_setWidth_get (Nat.le_refl 8), Word.HasOperation]

theorem exists_unknown {i : Instruction} (h : i.operation? = none) :
    ∃ t, i.body = "unknown[" ++ t := by
  have hm : ¬ i.isMov = true := by simp [isMov, h]
  rw [body, if_neg hm, h]
  refine ⟨"0x" ++ hexNatPadded 2 i.opcode.toNat ++ "] " ++ i.destination.text ++ ", " ++
    i.sourceA.text ++ ", " ++ i.sourceB.text, ?_⟩
  apply String.toList_inj.mp
  simp

theorem not_mem_front (i : Instruction) : '[' ∉ i.front.toList := by
  have h := i.conditionalText_front
  generalize i.front.toList = cs at h
  generalize i.condition.spelled = c at h
  cases h with
  | always => simp
  | @given cs s _ hc hs =>
      have hcs : '[' ∉ cs :=
        hc.not_mem (by decide) (by decide) (by decide) (by decide) (by decide)
      have hb : '[' ∉ s := hs.not_mem (by decide)
      simp [hcs, hb]

/-- The bracket that follows `unknown` is where an unknown opcode stops the assembler. -/
theorem instruction_text_unknown {i : Instruction} {t : String} (hs : i.Spellable)
    (h : i.body = "unknown[" ++ t) :
    Assembly.instruction i.text.toList = .error (.trailingInput ("[" ++ t)) := by
  have hl : Letters "unknown".toList := ⟨by decide, List.all_eq_true.mp (by decide)⟩
  obtain ⟨inside, hf, -⟩ := (conditionalText_iff [] []).mp i.conditionalText_front
  have ht : i.text.toList = i.front.toList ++ ("unknown".toList ++ '[' :: t.toList) := by
    rw [text_eq_front_append, h]
    simp
  have hline : Line.ofTrimmed (i.front.toList ++ ("unknown".toList ++ '[' :: t.toList)) =
      .error (.trailingInput (String.ofList ('[' :: t.toList))) :=
    ofTrimmed_of_trailing hf hl (by decide) (by decide) (by decide)
  have hrest : String.ofList ('[' :: t.toList) = "[" ++ t := by
    apply String.toList_inj.mp
    simp
  rw [Assembly.instruction, Line.ofChars, trim_text hs, ht, hline, hrest]
  rfl

end Instruction

namespace Word

theorem isConstant_destination_iff (w : Word) :
    (Instruction.ofWord w).destination.spelled.isConstant = true ↔ w.WritesConstant :=
  Instruction.isConstant_spelled_ofNibbles _ _

theorem destination_text_of_writesConstant {w : Word} (h : w.WritesConstant) :
    (Instruction.ofWord w).destination.text = "$" ++ hexNat (Field.dIndex.nibble w).toNat := by
  have hx : (Field.dIndex.nibble w).toNat % 256 = (Field.dIndex.nibble w).toNat := by omega
  rw [Instruction.ofWord, h.1]
  simp [Operand.ofNibbles, Operand.text, hx]

theorem ofLine_text_of_operation {w : Word} {o : Operation}
    (ho : (Instruction.ofWord w).operation? = some o) :
    Word.ofLine w.text =
      if w.WritesConstant then
        .error (.illegalWrite ("$" ++ hexNat (Field.dIndex.nibble w).toNat))
      else .ok w.normalized := by
  have hs := Instruction.spellable_ofWord w
  have hd := Instruction.destination_text (hs (Instruction.ofWord w).destination (by simp))
  rw [Word.ofLine, Assembly.word, Word.text, Instruction.instruction_text hs ho, hd]
  by_cases hw : w.WritesConstant
  · rw [if_pos ((isConstant_destination_iff w).mpr hw), if_pos hw,
      destination_text_of_writesConstant hw]
    rfl
  · rw [if_neg (mt (isConstant_destination_iff w).mp hw), if_neg hw,
      ← Instruction.toWord_spelled_ofWord]
    rfl

/-- What becomes of a word that is written as text and assembled again. With a known opcode and a
destination that can be written to it comes back in normal form, so a word comes back as it is
exactly when it is its own normal form. Otherwise the destination, or all of the text from the
first bracket on, is refused. -/
theorem ofLine_text (w : Word) :
    (w.HasOperation → ¬ w.WritesConstant → Word.ofLine w.text = .ok w.normalized) ∧
    (w.HasOperation → w.WritesConstant → Word.ofLine w.text =
      .error (.illegalWrite ("$" ++ hexNat (Field.dIndex.nibble w).toNat))) ∧
    (¬ w.HasOperation → ∃ front rest : String, w.text = front ++ "unknown[" ++ rest ∧
      '[' ∉ front.toList ∧ Word.ofLine w.text = .error (.trailingInput ("[" ++ rest))) ∧
    (Word.ofLine w.text = .ok w ↔
      w.HasOperation ∧ ¬ w.WritesConstant ∧ w.normalized = w) := by
  cases ho : (Instruction.ofWord w).operation? with
  | some o =>
      have hw : w.HasOperation := by
        rw [← Instruction.isSome_operation?_ofWord, ho]
        rfl
      have h := ofLine_text_of_operation ho
      by_cases hc : w.WritesConstant
      · rw [if_pos hc] at h
        simp [h, hw, hc]
      · rw [if_neg hc] at h
        simp [h, hw, hc]
  | none =>
      have hw : ¬ w.HasOperation := by
        rw [← Instruction.isSome_operation?_ofWord, ho]
        simp
      obtain ⟨rest, hbody⟩ := Instruction.exists_unknown ho
      have h := Instruction.instruction_text_unknown (Instruction.spellable_ofWord w) hbody
      have he : Word.ofLine w.text = .error (.trailingInput ("[" ++ rest)) := by
        rw [Word.ofLine, Assembly.word, Word.text, h]
        rfl
      refine ⟨fun h => absurd h hw, fun h => absurd h hw, fun _ => ?_, ?_⟩
      · refine ⟨(Instruction.ofWord w).front, rest, ?_, Instruction.not_mem_front _, he⟩
        rw [Word.text, Instruction.text_eq_front_append, hbody, String.append_assoc]
      · simp [he, hw]

end Word

end KeyIndexMachine
