import KeyIndexMachine.Proofs.Assembly.WordRoundTrip
import KeyIndexMachine.Proofs.FaultCauses
import KeyIndexMachine.Proofs.Packing

/-!
# The words that can be assembled

The grammar has no line for a constant zero, for a condition without a comparison, for a key
register that means something else, or for a digit above 15. So an instruction that some line
denotes loses nothing when it is packed and nothing when it is spelled, and its word is its own
normal form. Conversely a word in normal form with a known opcode and a destination that can be
written to is assembled from its own text. `Assembled` says by its fields which words these are.
No machine refuses one of them: it can only run out of leash before it.
-/
namespace KeyIndexMachine

/-- Some line is assembled to the word, said by its fields. -/
structure Word.Assembled (w : Word) : Prop where
  reserved : w.toNat < 2 ^ 44
  operation : Field.opcode.get w = 0xFF#64 ∨ Field.opcode.get w = 0xFE#64
  destination : Field.dKey.nibble w ≠ 8
  sourceA : ¬ (Field.aKey.nibble w = 8 ∧ Field.aIndex.nibble w = 0)
  sourceB : ¬ (Field.bKey.nibble w = 8 ∧ Field.bIndex.nibble w = 0)
  condition : Field.compareOp.nibble w = 0 →
    Field.compareA.nibble w = 0 ∧ Field.compareB.nibble w = 0

namespace Assembly

theorem OperandText.spelled_packed {cs : List Char} {o : Operand} (h : OperandText cs o) :
    o.spelled = o ∧ o.packed = o := by
  rw [Operand.packed_eq_self_iff]
  cases h with
  | register r => exact ⟨rfl, trivial⟩
  | indirect x hz hp => exact ⟨rfl, hz, hp⟩
  | @constant d n hd hn =>
      have hl : n < 16 := hd.1
      have hv : (BitVec.ofNat 8 n).toNat = n := by
        rw [BitVec.toNat_ofNat]
        omega
      have hz : BitVec.ofNat 8 n ≠ 0#8 := by
        intro h
        rw [h] at hv
        exact hn hv.symm
      refine ⟨if_neg hz, ?_⟩
      rw [Operand.Packable, hv]
      omega

theorem ConditionalText.spelled {cs : List Char} {c : Condition} (h : ConditionalText cs c) :
    c.spelled = c := by
  cases h with
  | always => rfl
  | given hc _ =>
      obtain ⟨a, b, -, -, -, -, hs⟩ := hc
      cases hs <;> rfl

theorem BodyText.operands {cs : List Char} {o : Operation} {D A B : Operand}
    (h : BodyText cs o D A B) : (∃ d, DestinationText d D) ∧ (∃ a, OperandText a A) ∧
      ∃ b, OperandText b B := by
  cases h with
  | operation _ _ _ hd _ _ ha _ _ hb => exact ⟨⟨_, hd⟩, ⟨_, ha⟩, ⟨_, hb⟩⟩
  | mov _ _ hd _ _ hb => exact ⟨⟨_, hd⟩, ⟨_, .register .zero⟩, ⟨_, hb⟩⟩

/-- What a line denotes survives being spelled and being packed, and can be carried out. -/
structure Denotable (i : Instruction) : Prop where
  spelled : i.spelled = i
  packed : i.packed = i
  operation : i.operation?.isSome = true
  destination : i.destination.isConstant = false

theorem InstructionText.denotable {cs : List Char} {i : Instruction} (h : InstructionText cs i) :
    Denotable i := by
  obtain ⟨hc, hb⟩ := h
  obtain ⟨⟨d, hd, hw⟩, ⟨a, ha⟩, ⟨b, hb⟩⟩ := hb.operands
  have hs := hc.spelled
  exact {
    spelled := by
      simp only [Instruction.spelled, hs, hd.spelled_packed.1, ha.spelled_packed.1,
        hb.spelled_packed.1]
    packed := by
      simp only [Instruction.packed, hd.spelled_packed.2, ha.spelled_packed.2,
        hb.spelled_packed.2]
    operation := by simp [Instruction.operation?]
    destination := not_isConstant_iff.mpr hw }

theorem Denotable.ofWord_toWord {i : Instruction} (h : Denotable i) :
    Instruction.ofWord i.toWord = i := by
  rw [Instruction.ofWord_toWord, h.packed]

end Assembly

namespace Condition

theorem spelled_ofNibbles_eq_self_iff (a o b : Nibble) :
    (⟨Register.ofNibble a, Comparison.ofNibble o, Register.ofNibble b⟩ : Condition).spelled =
        ⟨Register.ofNibble a, Comparison.ofNibble o, Register.ofNibble b⟩ ↔
      (o = 0 → a = 0 ∧ b = 0) := by
  have ho : ∀ n : Nibble, Comparison.ofNibble n = .always ↔ n = 0 := by decide
  have hr : ∀ n : Nibble, Register.zero = Register.ofNibble n ↔ n = 0 := by decide
  by_cases hz : o = 0
  · have hc : Comparison.ofNibble o = .always := (ho o).mpr hz
    rw [spelled, if_pos hc, hc, always]
    simp only [mk.injEq, hr, hz, true_and, true_imp_iff]
  · rw [spelled, if_neg (mt (ho o).mp hz)]
    exact ⟨fun _ h => absurd h hz, fun _ => rfl⟩

end Condition

namespace Word

theorem normalized_eq_self_iff (w : Word) :
    w.normalized = w ↔
      Field.reserved w = 0#64 ∧ (Instruction.ofWord w).spelled = Instruction.ofWord w := by
  constructor
  · intro h
    have hr := reserved_normalized w
    have hs := Instruction.ofWord_normalized w
    rw [h] at hr hs
    exact ⟨hr, hs.symm⟩
  · rintro ⟨hr, hs⟩
    calc
      w.normalized = (Instruction.ofWord w).spelled.toWord :=
        (Instruction.toWord_spelled_ofWord w).symm
      _ = (Instruction.ofWord w).toWord := by rw [hs]
      _ = w &&& fieldBits := Instruction.toWord_ofWord w
      _ = w := Field.and_fieldBits_eq_self hr

/-- The constant zero as destination is not in normal form, and no other can be written to. -/
theorem assembled_iff (w : Word) :
    w.Assembled ↔ w.HasOperation ∧ ¬ w.WritesConstant ∧ w.normalized = w := by
  have hspelled : ∀ k x : Nibble,
      (Operand.ofNibbles k x).spelled = Operand.ofNibbles k x ↔ ¬ (k = 8 ∧ x = 0) := by decide
  rw [normalized_eq_self_iff, Field.reserved_eq_zero_iff]
  simp only [Instruction.spelled, Instruction.ofWord, Instruction.mk.injEq, true_and, hspelled,
    Condition.spelled_ofNibbles_eq_self_iff]
  constructor
  · intro h
    exact ⟨h.operation, fun hc => h.destination hc.1, h.reserved, h.condition,
      fun hd => h.destination hd.1, h.sourceA, h.sourceB⟩
  · rintro ⟨ho, hw, hr, hc, hd, ha, hb⟩
    refine ⟨hr, ho, ?_, ha, hb, hc⟩
    intro hk
    by_cases hx : Field.dIndex.nibble w = 0
    · exact hd ⟨hk, hx⟩
    · exact hw ⟨hk, hx⟩

theorem ofLine_text_of_assembled {w : Word} (h : w.Assembled) : Word.ofLine w.text = .ok w := by
  obtain ⟨ho, hw, hn⟩ := (assembled_iff w).mp h
  rw [← Instruction.isSome_operation?_ofWord] at ho
  obtain ⟨o, ho⟩ := Option.isSome_iff_exists.mp ho
  rw [ofLine_text_of_operation ho, if_neg hw, hn]

theorem exists_instruction_of_ofLine {line : String} {w : Word} (h : Word.ofLine line = .ok w) :
    ∃ i, Instruction.ofLine line = .ok i ∧ i.toWord = w ∧ Assembly.Denotable i := by
  rw [Word.ofLine, Assembly.word] at h
  cases hi : Assembly.instruction line.toList with
  | error e =>
      rw [hi] at h
      cases h
  | ok i =>
      rw [hi] at h
      cases h
      obtain ⟨l, cs, r, -, -, -, ht⟩ := Assembly.instructionText_of_instruction hi
      exact ⟨i, hi, rfl, ht.denotable⟩

theorem assembled_toWord {i : Instruction} (h : Assembly.Denotable i) : i.toWord.Assembled := by
  have hi := h.ofWord_toWord
  rw [assembled_iff, ← Instruction.isSome_operation?_ofWord, ← isConstant_destination_iff,
    ← Instruction.toWord_spelled_ofWord, hi, h.spelled]
  have hs : i.destination.spelled = i.destination := congrArg Instruction.destination h.spelled
  exact ⟨h.operation, by simp [hs, h.destination], rfl⟩

theorem assembled_of_ofLine {line : String} {w : Word} (h : Word.ofLine line = .ok w) :
    w.Assembled := by
  obtain ⟨i, -, rfl, hd⟩ := exists_instruction_of_ofLine h
  exact assembled_toWord hd

theorem Assembled.ne_zero {w : Word} (h : w.Assembled) : w ≠ 0#64 := by
  rintro rfl
  rcases h.operation with ho | ho <;> exact absurd ho (by decide)

theorem Assembled.isCanonical {w : Word} (h : w.Assembled) : w.isCanonical = true := by
  have hr : w &&& ~~~fieldBits = 0#64 := Field.reserved_eq_zero_iff.mpr h.reserved
  simp [Word.isCanonical, h.ne_zero, hr]

theorem Assembled.not_refused {w : Word} (h : w.Assembled) (s : AddressSpace) (kind : FaultKind) :
    (Instruction.ofWord w).execute s ≠ .refused kind := by
  intro hr
  rcases (Instruction.refused_cases hr).2 with ⟨ho, -⟩ | ⟨v, -, hd, -⟩
  · have hs := (Instruction.isSome_operation?_ofWord w).mpr h.operation
    rw [ho] at hs
    cases hs
  · have hk := congrArg Operand.key hd
    rw [Instruction.ofWord, Operand.key_ofNibbles] at hk
    exact h.destination hk

theorem Assembled.kind_of_hasCause {f : Fault} (h : f.word.Assembled) (hf : f.HasCause) :
    f.kind = .ranTooLong := by
  rcases hf with hk | ⟨s, hs⟩
  · exact hk
  · exact absurd hs (h.not_refused s f.kind)

/-- A word is assembled from some line exactly when its fields are those of `Assembled`. It denotes
what the line denotes, it is canonical, its instruction is refused in no space, and whatever a
machine is told to do, the only fault over this word that it answers with, reports or aborts for is
that of a leash used up. -/
theorem exists_ofLine_iff_assembled :
    (∀ w, (∃ line, Word.ofLine line = .ok w) ↔ w.Assembled) ∧
    ∀ line w, Word.ofLine line = .ok w →
      Instruction.ofLine line = .ok (Instruction.ofWord w) ∧ w.isCanonical = true ∧ w ≠ 0#64 ∧
      (∀ s kind, (Instruction.ofWord w).execute s ≠ .refused kind) ∧
      ∀ (m : Machine) (c : Command),
        (∀ f, (m.perform c).answer = .fault f ∨ .faulted f ∈ (m.perform c).log →
          f.word = w → f.kind = .ranTooLong) ∧
        (∀ message, (m.perform c).answer = .abort message →
          ∃ f, .faulted f ∈ (m.perform c).log ∧ message = f.text) := by
  refine ⟨?_, ?_⟩
  · intro w
    constructor
    · rintro ⟨line, h⟩
      exact assembled_of_ofLine h
    · intro h
      exact ⟨w.text, ofLine_text_of_assembled h⟩
  · intro line w h
    obtain ⟨i, hi, rfl, hd⟩ := exists_instruction_of_ofLine h
    have ha := assembled_toWord hd
    refine ⟨by rw [hd.ofWord_toWord, hi], ha.isCanonical, ha.ne_zero, ha.not_refused, ?_⟩
    intro m c
    refine ⟨?_, fun message hm => Machine.exists_faulted_of_abort hm⟩
    intro f hf hw
    exact (hw ▸ ha).kind_of_hasCause (Machine.hasCause_of_perform hf)

/-- A line with a reserved comparison, an operand in memory and a constant. A machine without a
leash faults in front of its word. -/
theorem exists_ofLine_iff_assembled_conditional :
    Word.ofLine "if(r4?7r5) sub r1, hashtable[DK/DX], $1" = .ok 0x47501CD81FE#64 ∧
    Instruction.ofLine "if(r4?7r5) sub r1, hashtable[DK/DX], $1" =
      .ok (Instruction.ofWord 0x47501CD81FE#64) ∧
    ∃ f, ((Machine.inRegisters 0x47501CD81FE#64 0).perform .step).answer = .fault f ∧
      f.word = 0x47501CD81FE#64 ∧ f.kind = .ranTooLong := by
  have ht : Word.text 0x47501CD81FE#64 = "if(r4?7r5) sub r1, hashtable[DK/DX], $1" := by decide
  have hw : Word.ofLine "if(r4?7r5) sub r1, hashtable[DK/DX], $1" = .ok 0x47501CD81FE#64 := by
    rw [← ht]
    exact ofLine_text_of_assembled
      ⟨by decide, by decide, by decide, by decide, by decide, by decide⟩
  have hf : ∃ f, ((Machine.inRegisters 0x47501CD81FE#64 0).perform .step).answer = .fault f ∧
      f.word = 0x47501CD81FE#64 := ⟨_, rfl, rfl⟩
  obtain ⟨hi, -, -, -, hm⟩ := exists_ofLine_iff_assembled.2 _ _ hw
  obtain ⟨f, ha, hfw⟩ := hf
  exact ⟨hw, hi, f, ha, hfw, (hm _ .step).1 f (.inl ha) hfw⟩

end Word

end KeyIndexMachine
