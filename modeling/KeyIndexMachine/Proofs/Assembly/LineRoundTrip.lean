import KeyIndexMachine.Proofs.Assembly.WordRoundTrip

/-!
# Lines through words and back

A line that was written from a word and is assembled again comes back as the same line, but for one
kind. The text of a constant zero is `$0`, and `$0` is read as the register. For the word that makes
no difference to the text of any operand, but an `add` whose first source is that register is
written `mov`. So an `add` to the constant zero turns into a `mov`, and nothing else changes.
-/
namespace KeyIndexMachine

theorem Operand.text_spelled (o : Operand) : o.spelled.text = o.text := by
  cases o with
  | register r => rfl
  | indirect k x => rfl
  | constant v =>
      by_cases hv : v = 0
      · subst hv
        decide
      · rw [spelled, if_neg hv]

theorem Operand.spelled_eq_zero_iff (o : Operand) :
    o.spelled = .register .zero ↔ o = .register .zero ∨ o = .constant 0 := by
  cases o with
  | register r => simp [spelled]
  | indirect k x => simp [spelled]
  | constant v => by_cases hv : v = 0 <;> simp [spelled, hv]

namespace Instruction

theorem front_spelled (i : Instruction) : i.spelled.front = i.front := by
  by_cases hc : i.condition.comparison = .always
  · simp [front, isConditional, spelled, Condition.spelled, hc, Condition.always]
  · simp [front, isConditional, spelled, Condition.spelled, hc]

/-- It adds something to the constant zero, not to register `$0`. -/
def AddsToZero (i : Instruction) : Prop :=
  i.operation? = some .add ∧ i.sourceA = .constant 0

theorem isMov_spelled {i : Instruction} (h : ¬ i.AddsToZero) : i.spelled.isMov = i.isMov := by
  rw [Bool.eq_iff_iff]
  simp only [isMov, Bool.and_eq_true, beq_iff_eq]
  constructor
  · rintro ⟨ho, ha⟩
    rcases (Operand.spelled_eq_zero_iff _).mp ha with ha | ha
    · exact ⟨ho, ha⟩
    · exact absurd ⟨ho, ha⟩ h
  · rintro ⟨ho, ha⟩
    exact ⟨ho, (Operand.spelled_eq_zero_iff _).mpr (.inl ha)⟩

theorem body_spelled {i : Instruction} (h : ¬ i.AddsToZero) : i.spelled.body = i.body := by
  have ho : i.spelled.operation? = i.operation? := rfl
  simp only [body, isMov_spelled h, ho]
  simp only [spelled, Operand.text_spelled]

theorem text_spelled {i : Instruction} (h : ¬ i.AddsToZero) : i.spelled.text = i.text := by
  rw [text_eq_front_append, text_eq_front_append, front_spelled, body_spelled h]

/-- The two texts of an `add` to the constant zero, as it is and as it comes back. -/
theorem AddsToZero.texts {i : Instruction} (h : i.AddsToZero) :
    i.text = i.front ++ ("add " ++ i.destination.text ++ ", $0, " ++ i.sourceB.text) ∧
      i.spelled.text = i.front ++ ("mov " ++ i.destination.text ++ ", " ++ i.sourceB.text) := by
  obtain ⟨ho, ha⟩ := h
  have hm : i.isMov = false := by simp [isMov, ha]
  have hs : i.spelled.isMov = true := by
    have hz : i.spelled.sourceA = .register .zero :=
      (Operand.spelled_eq_zero_iff _).mpr (.inr ha)
    have hadd : i.spelled.operation? = some .add := ho
    simp [isMov, hz, hadd]
  have hzero : i.sourceA.text = "$0" := by
    rw [ha]
    decide
  refine ⟨?_, ?_⟩
  · rw [text_eq_front_append, body, hm, ho, hzero]
    simp [Operation.name, String.append_assoc]
  · rw [text_eq_front_append, front_spelled, body, hs]
    simp [spelled, Operand.text_spelled, String.append_assoc]

theorem text_spelled_iff (i : Instruction) : i.spelled.text = i.text ↔ ¬ i.AddsToZero := by
  refine ⟨?_, text_spelled⟩
  intro he h
  obtain ⟨ht, hs⟩ := h.texts
  rw [ht, hs] at he
  have hl := congrArg String.toList he
  simp at hl

end Instruction

namespace Word

/-- The opcode is that of `add` and the first source is the constant zero. -/
def AddsToZero (w : Word) : Prop :=
  Field.opcode.get w = 0xFF#64 ∧ Field.aKey.nibble w = 8 ∧ Field.aIndex.nibble w = 0

theorem addsToZero_ofWord_iff (w : Word) : (Instruction.ofWord w).AddsToZero ↔ w.AddsToZero := by
  have ho : ∀ b : Byte, Operation.ofOpcode? b = some .add ↔ b.setWidth 64 = 0xFF#64 := by decide
  have ha : ∀ k x : Nibble, Operand.ofNibbles k x = .constant 0 ↔ k = 8 ∧ x = 0 := by decide
  rw [Instruction.AddsToZero, Instruction.operation?, Instruction.ofWord, ho, ha,
    Field.setWidth_setWidth_get (Nat.le_refl 8), AddsToZero]

/-- The assembler accepts the text of a word only as the normal form of that word. -/
theorem eq_normalized_of_ofLine_text {w v : Word} (h : Word.ofLine w.text = .ok v) :
    v = w.normalized := by
  cases ho : (Instruction.ofWord w).operation? with
  | some o =>
      rw [ofLine_text_of_operation ho] at h
      split at h
      · cases h
      · exact (Except.ok.inj h).symm
  | none =>
      obtain ⟨rest, hbody⟩ := Instruction.exists_unknown ho
      rw [Word.ofLine, Assembly.word, Word.text,
        Instruction.instruction_text_unknown (Instruction.spellable_ofWord w) hbody] at h
      cases h

/-- A line that was written from a word and assembled again is written the same way, unless it adds
to the constant zero. Then it has become a `mov`. -/
theorem text_of_ofLine_text {w v : Word} (h : Word.ofLine w.text = .ok v) :
    (v.text = w.text ↔ ¬ w.AddsToZero) ∧
    (w.AddsToZero → ∃ front d b : String, w.text = front ++ ("add " ++ d ++ ", $0, " ++ b) ∧
      v.text = front ++ ("mov " ++ d ++ ", " ++ b)) := by
  have hv : v.text = (Instruction.ofWord w).spelled.text := by
    rw [eq_normalized_of_ofLine_text h, Word.text, Instruction.ofWord_normalized]
  rw [hv, ← addsToZero_ofWord_iff]
  exact ⟨Instruction.text_spelled_iff _, fun hz => ⟨_, _, _, hz.texts⟩⟩

/-- The constant zero as the second source, and a reserved bit, are lost on the way, but not
seen. -/
theorem text_of_ofLine_text_second_source :
    Word.ofLine (Word.text 0x80000000028F80FF#64) = .ok 0x028F00FF#64 ∧
      Word.text 0x028F00FF#64 = Word.text 0x80000000028F80FF#64 := by
  have h : Word.ofLine (Word.text 0x80000000028F80FF#64) = .ok 0x028F00FF#64 := by
    rw [ofLine_text_of_operation (o := .add) rfl, if_neg (by decide)]
    exact congrArg Except.ok (by decide)
  exact ⟨h, (text_of_ofLine_text h).1.mpr (by unfold AddsToZero; decide)⟩

/-- The law that every line comes back fails at `add r1, $0, r2`, written from a word whose first
source is the constant zero. -/
theorem text_ofLine_add_zero :
    Word.text 0x018002FF#64 = "add r1, $0, r2" ∧
      Word.ofLine "add r1, $0, r2" = .ok 0x010002FF#64 ∧
      Word.text 0x010002FF#64 = "mov r1, r2" := by
  have ht : Word.text 0x018002FF#64 = "add r1, $0, r2" := by decide
  refine ⟨ht, ?_, by decide⟩
  rw [← ht, ofLine_text_of_operation (o := .add) rfl, if_neg (by decide)]
  exact congrArg Except.ok (by decide)

end Word

end KeyIndexMachine
