import KeyIndexMachine.Proofs.FieldLaws

/-!
# Words in normal form

Packing undoes unpacking up to the reserved bits. A word that goes through text as well loses a
little more: the constant zero is spelled like register `$0` and comes back as that register, and a
condition that asks nothing is not spelled, so its registers come back as `$0`. The word without
these three things is its normal form, and each of its fields is computed here from the fields of
the word.
-/
namespace KeyIndexMachine

namespace Field

/-- The contents of a field survive being cut to as many bits as the field has. -/
theorem setWidth_setWidth_get {f : Field} {n : Nat} (hn : f.width ≤ n) (w : Word) :
    ((f.get w).setWidth n).setWidth 64 = f.get w := by
  apply BitVec.eq_of_getLsbD_eq
  intro i hi
  rw [BitVec.getLsbD_setWidth, BitVec.getLsbD_setWidth, getLsbD_get]
  by_cases h : i < f.width
  · simp [h, hi, show i < n by omega]
  · simp [h]

theorem setWidth_nibble {f : Field} (hf : f ≠ opcode) (w : Word) :
    (f.nibble w).setWidth 64 = f.get w := by
  have hw : f.width ≤ 4 := by
    cases f with
    | opcode => exact absurd rfl hf
    | _ => exact Nat.le_refl 4
  exact setWidth_setWidth_get hw w

theorem nibble_set_zero (f : Field) (w : Word) : f.nibble (f.set w 0) = 0 := by
  simp [nibble]

theorem nibble_set_of_ne {f g : Field} (h : g ≠ f) (w v : Word) :
    g.nibble (f.set w v) = g.nibble w := by
  rw [nibble, get_set_of_ne (Ne.symm h), nibble]

theorem nibble_and_fieldBits (f : Field) (w : Word) : f.nibble (w &&& fieldBits) = f.nibble w := by
  rw [nibble, get_and_fieldBits, nibble]

end Field

/-- Packing what a word denotes gives the word again, with its reserved bits cleared. -/
theorem Instruction.toWord_ofWord (w : Word) : (ofWord w).toWord = w &&& fieldBits := by
  refine Field.eq_of_get_eq (by simp) ?_
  intro f
  rw [get_toWord, Field.get_and_fieldBits]
  cases f with
  | opcode => exact Field.setWidth_setWidth_get (Nat.le_refl 8) w
  | _ =>
      simp only [fieldValue, ofWord, Operand.key_ofNibbles, Operand.index_ofNibbles,
        Register.nibble_ofNibble, Comparison.nibble_ofNibble]
      exact Field.setWidth_nibble (by decide) w

namespace Word

/-- The opcode is that of an operation. -/
def HasOperation (w : Word) : Prop :=
  Field.opcode.get w = 0xFF#64 ∨ Field.opcode.get w = 0xFE#64

/-- The destination is a constant other than zero. -/
def WritesConstant (w : Word) : Prop :=
  Field.dKey.nibble w = 8 ∧ Field.dIndex.nibble w ≠ 0

instance (w : Word) : Decidable w.HasOperation := inferInstanceAs (Decidable (_ ∨ _))

instance (w : Word) : Decidable w.WritesConstant := inferInstanceAs (Decidable (_ ∧ _))

/-- Register zero in place of the constant zero. -/
def withoutZero (key index : Field) (w : Word) : Word :=
  if key.nibble w = 8 ∧ index.nibble w = 0 then key.set w 0 else w

/-- Register zero twice in a condition that asks nothing. -/
def withoutIdleCondition (w : Word) : Word :=
  if Field.compareOp.nibble w = 0 then Field.compareA.set (Field.compareB.set w 0) 0 else w

/-- The word with the same text whose reserved bits are clear, and in which nothing is set that the
text leaves open. -/
def normalized (w : Word) : Word :=
  withoutIdleCondition
    (withoutZero .dKey .dIndex
      (withoutZero .aKey .aIndex
        (withoutZero .bKey .bIndex (w &&& fieldBits))))

end Word

/-- The operand that an operand comes back as from its text. -/
def Operand.spelled : Operand → Operand
  | constant v => if v = 0 then register .zero else constant v
  | o => o

/-- The condition that a condition comes back as from its text. -/
def Condition.spelled (c : Condition) : Condition :=
  if c.comparison = .always then Condition.always else c

def Instruction.spelled (i : Instruction) : Instruction where
  condition := i.condition.spelled
  opcode := i.opcode
  destination := i.destination.spelled
  sourceA := i.sourceA.spelled
  sourceB := i.sourceB.spelled

namespace Word

/-- The operand that a pair of fields denotes. -/
def operandAt (key index : Field) (w : Word) : Operand :=
  Operand.ofNibbles (key.nibble w) (index.nibble w)

theorem operandAt_and_fieldBits (key index : Field) (w : Word) :
    operandAt key index (w &&& fieldBits) = operandAt key index w := by
  rw [operandAt, Field.nibble_and_fieldBits, Field.nibble_and_fieldBits, operandAt]

theorem reserved_withoutZero (key index : Field) (w : Word) :
    Field.reserved (withoutZero key index w) = Field.reserved w := by
  unfold withoutZero
  split
  · exact Field.reserved_set _ _ _
  · rfl

theorem get_withoutZero_of_ne {key f : Field} (h : key ≠ f) (index : Field) (w : Word) :
    f.get (withoutZero key index w) = f.get w := by
  unfold withoutZero
  split
  · exact Field.get_set_of_ne h w 0
  · rfl

theorem nibble_withoutZero_of_ne {key f : Field} (h : key ≠ f) (index : Field) (w : Word) :
    f.nibble (withoutZero key index w) = f.nibble w := by
  rw [Field.nibble, get_withoutZero_of_ne h, Field.nibble]

theorem operandAt_withoutZero {key index : Field} (h : key ≠ index) (w : Word) :
    operandAt key index (withoutZero key index w) = (operandAt key index w).spelled := by
  have hs : ∀ k x : Nibble, ¬ (k = 8 ∧ x = 0) →
      Operand.ofNibbles k x = (Operand.ofNibbles k x).spelled := by decide
  rw [operandAt, nibble_withoutZero_of_ne h]
  by_cases hz : key.nibble w = 8 ∧ index.nibble w = 0
  · rw [withoutZero, if_pos hz, Field.nibble_set_zero, operandAt, hz.1, hz.2]
    rfl
  · rw [withoutZero, if_neg hz]
    exact hs _ _ hz

theorem operandAt_withoutZero_of_ne {key index k : Field} (hk : k ≠ key) (hx : k ≠ index)
    (x : Field) (w : Word) : operandAt key index (withoutZero k x w) = operandAt key index w := by
  rw [operandAt, nibble_withoutZero_of_ne hk, nibble_withoutZero_of_ne hx, operandAt]

theorem reserved_withoutIdleCondition (w : Word) :
    Field.reserved (withoutIdleCondition w) = Field.reserved w := by
  unfold withoutIdleCondition
  split
  · rw [Field.reserved_set, Field.reserved_set]
  · rfl

theorem get_withoutIdleCondition_of_ne {f : Field} (ha : .compareA ≠ f) (hb : .compareB ≠ f)
    (w : Word) : f.get (withoutIdleCondition w) = f.get w := by
  unfold withoutIdleCondition
  split
  · rw [Field.get_set_of_ne ha, Field.get_set_of_ne hb]
  · rfl

theorem nibble_withoutIdleCondition_of_ne {f : Field} (ha : .compareA ≠ f) (hb : .compareB ≠ f)
    (w : Word) : f.nibble (withoutIdleCondition w) = f.nibble w := by
  rw [Field.nibble, get_withoutIdleCondition_of_ne ha hb, Field.nibble]

theorem operandAt_withoutIdleCondition {key index : Field} (hka : .compareA ≠ key)
    (hkb : .compareB ≠ key) (hxa : .compareA ≠ index) (hxb : .compareB ≠ index) (w : Word) :
    operandAt key index (withoutIdleCondition w) = operandAt key index w := by
  rw [operandAt, nibble_withoutIdleCondition_of_ne hka hkb,
    nibble_withoutIdleCondition_of_ne hxa hxb, operandAt]

theorem condition_withoutIdleCondition (w : Word) :
    (Instruction.ofWord (withoutIdleCondition w)).condition =
      (Instruction.ofWord w).condition.spelled := by
  have ha : ∀ n : Nibble, Comparison.ofNibble n = .always ↔ n = 0 := by decide
  have ho := nibble_withoutIdleCondition_of_ne (f := .compareOp) (by decide) (by decide) w
  simp only [Instruction.ofWord, Condition.spelled, ha, ho]
  by_cases hz : Field.compareOp.nibble w = 0
  · rw [withoutIdleCondition, if_pos hz, if_pos hz, Field.nibble_set_zero,
      Field.nibble_set_of_ne (by decide), Field.nibble_set_zero, hz]
    rfl
  · rw [withoutIdleCondition, if_neg hz, if_neg hz]

theorem operandAt_normalized {key index : Field}
    (h : (key, index) ∈ [(.dKey, .dIndex), (.aKey, .aIndex), (Field.bKey, Field.bIndex)])
    (w : Word) : operandAt key index w.normalized = (operandAt key index w).spelled := by
  simp only [List.mem_cons, List.not_mem_nil, or_false, Prod.mk.injEq] at h
  rcases h with ⟨rfl, rfl⟩ | ⟨rfl, rfl⟩ | ⟨rfl, rfl⟩ <;>
    simp (disch := decide) only [normalized, operandAt_withoutIdleCondition,
      operandAt_withoutZero, operandAt_withoutZero_of_ne, operandAt_and_fieldBits]

@[simp] theorem reserved_normalized (w : Word) : Field.reserved w.normalized = 0 := by
  simp only [normalized, reserved_withoutIdleCondition, reserved_withoutZero,
    Field.reserved_and_fieldBits]
  rfl

end Word

/-- The normal form of a word denotes what the text of the word denotes. -/
theorem Instruction.ofWord_normalized (w : Word) : ofWord w.normalized = (ofWord w).spelled := by
  have hc : (ofWord w.normalized).condition = (ofWord w).condition.spelled := by
    rw [Word.normalized, Word.condition_withoutIdleCondition]
    simp (disch := decide) only [ofWord, Word.nibble_withoutZero_of_ne, Field.nibble_and_fieldBits]
  have ho : (ofWord w.normalized).opcode = (ofWord w).opcode := by
    simp (disch := decide) only [ofWord, Word.normalized, Word.get_withoutIdleCondition_of_ne,
      Word.get_withoutZero_of_ne, Field.get_and_fieldBits]
  calc
    ofWord w.normalized = ⟨(ofWord w.normalized).condition, (ofWord w.normalized).opcode,
        Word.operandAt .dKey .dIndex w.normalized, Word.operandAt .aKey .aIndex w.normalized,
        Word.operandAt .bKey .bIndex w.normalized⟩ := rfl
    _ = ⟨(ofWord w).condition.spelled, (ofWord w).opcode,
        (Word.operandAt .dKey .dIndex w).spelled, (Word.operandAt .aKey .aIndex w).spelled,
        (Word.operandAt .bKey .bIndex w).spelled⟩ := by
      rw [hc, ho, Word.operandAt_normalized (by decide), Word.operandAt_normalized (by decide),
        Word.operandAt_normalized (by decide)]
    _ = (ofWord w).spelled := rfl

/-- What the text of a word denotes is packed into the normal form of the word. -/
theorem Instruction.toWord_spelled_ofWord (w : Word) :
    (ofWord w).spelled.toWord = w.normalized := by
  rw [← ofWord_normalized, toWord_ofWord]
  refine Field.eq_of_get_eq ?_ (Field.get_and_fieldBits · _)
  rw [Field.reserved_and_fieldBits, Word.reserved_normalized]
  rfl

end KeyIndexMachine
