import KeyIndexMachine.Proofs.Normalization
import Mathlib.Algebra.Group.Int.Defs
import Mathlib.Algebra.Group.Nat.Defs

/-!
# What packing keeps

A word that is unpacked and packed again keeps the bits of its fields and no others, so two words
denote one instruction exactly when they agree on these bits. The other way round an instruction can
hold what has no place in a word: a constant above 15, or an indirect operand whose key register has
one of the two numbers that mean something else. Each operand comes back as the operand that its
nibbles denote, whatever the other two operands are, and the rest of the instruction comes back as
it was.
-/
namespace KeyIndexMachine

namespace Field

theorem and_fieldBits_eq_iff {w v : Word} :
    w &&& fieldBits = v &&& fieldBits ↔ ∀ i < 44, w.getLsbD i = v.getLsbD i := by
  constructor
  · intro h i hi
    have hb := congrArg (fun u : Word => u.getLsbD i) h
    simpa [getLsbD_fieldBits, hi] using hb
  · intro h
    apply BitVec.eq_of_getLsbD_eq
    intro i _
    rw [BitVec.getLsbD_and, BitVec.getLsbD_and, getLsbD_fieldBits]
    by_cases hi : i < 44
    · rw [h i hi]
    · simp [hi]

theorem and_fieldBits_eq_self {w : Word} (h : reserved w = 0#64) : w &&& fieldBits = w :=
  eq_of_get_eq (by rw [reserved_and_fieldBits, h]) (get_and_fieldBits · w)

/-- Reserved bits that are clear bound the word. -/
theorem reserved_eq_zero_iff {w : Word} : reserved w = 0#64 ↔ w.toNat < 2 ^ 44 := by
  have hmask : fieldBits.toNat = 2 ^ 44 - 1 := rfl
  constructor
  · intro h
    rw [← and_fieldBits_eq_self h, BitVec.toNat_and, hmask, Nat.and_two_pow_sub_one_eq_mod]
    omega
  · intro h
    have hw : w &&& fieldBits = w := by
      apply BitVec.eq_of_toNat_eq
      rw [BitVec.toNat_and, hmask, Nat.and_two_pow_sub_one_eq_mod, Nat.mod_eq_of_lt h]
    rw [← hw, reserved_and_fieldBits]

end Field

namespace Operand

/-- The nibbles of the operand denote it and no other operand. -/
def Packable : Operand → Prop
  | register _ => True
  | constant v => v.toNat ≤ 15
  | indirect k _ => k ≠ .zero ∧ k ≠ .px

/-- What the nibbles of the operand denote. -/
def packed : Operand → Operand
  | constant v => constant (BitVec.ofNat 8 (v.toNat % 16))
  | indirect .zero x => register x
  | indirect .px x => constant (BitVec.ofNat 8 x.number.val)
  | o => o

theorem packed_eq_self_iff (o : Operand) : o.packed = o ↔ o.Packable := by
  cases o with
  | register r => simp [packed, Packable]
  | constant v =>
      have hl := v.isLt
      simp only [packed, Packable, constant.injEq, ← BitVec.toNat_inj, BitVec.toNat_ofNat]
      omega
  | indirect k x => cases k <;> simp [packed, Packable]

theorem ofNibbles_key_index (o : Operand) : ofNibbles o.key o.index = o.packed := by
  cases o with
  | register r => simp [ofNibbles, key, index, packed]
  | constant v =>
      have hv : (v.setWidth 4).setWidth 8 = BitVec.ofNat 8 (v.toNat % 16) := by
        apply BitVec.eq_of_toNat_eq
        simp only [BitVec.toNat_setWidth, BitVec.toNat_ofNat]
      simp [ofNibbles, key, index, packed, hv]
  | indirect k x =>
      have hk : k.nibble = 0#4 ↔ k = .zero := by cases k <;> decide
      have hc : k.nibble = 8#4 ↔ k = .px := by cases k <;> decide
      by_cases hz : k = .zero
      · subst hz
        simp [ofNibbles, key, index, packed, hk]
      · by_cases hp : k = .px
        · have hx : x.nibble.setWidth 8 = BitVec.ofNat 8 x.number.val := by
            cases x <;> rfl
          subst hp
          simp [ofNibbles, key, index, packed, hk, hc, hx]
        · rw [(packed_eq_self_iff (indirect k x)).mpr ⟨hz, hp⟩]
          simp [ofNibbles, key, index, hk, hc, hz, hp]

end Operand

namespace Instruction

/-- What the word of the instruction denotes. -/
def packed (i : Instruction) : Instruction where
  condition := i.condition
  opcode := i.opcode
  destination := i.destination.packed
  sourceA := i.sourceA.packed
  sourceB := i.sourceB.packed

def Packable (i : Instruction) : Prop :=
  i.destination.Packable ∧ i.sourceA.Packable ∧ i.sourceB.Packable

theorem packed_eq_self_iff (i : Instruction) : i.packed = i ↔ i.Packable := by
  obtain ⟨c, o, d, a, b⟩ := i
  simp only [packed, Packable, mk.injEq, true_and, Operand.packed_eq_self_iff]

theorem nibble_toWord (i : Instruction) (f : Field) :
    f.nibble i.toWord = (i.fieldValue f).setWidth 4 := by
  rw [Field.nibble, get_toWord]

theorem ofWord_toWord (i : Instruction) : ofWord i.toWord = i.packed := by
  have hn : ∀ n : Nibble, (n.setWidth 64).setWidth 4 = n := by decide
  have hb : ∀ b : Byte, (b.setWidth 64).setWidth 8 = b := by decide
  simp only [ofWord, packed, nibble_toWord, get_toWord, fieldValue, hn, hb,
    Operand.ofNibbles_key_index, Register.ofNibble_nibble, Comparison.ofNibble_nibble]

theorem ofWord_and_fieldBits (w : Word) : ofWord (w &&& fieldBits) = ofWord w := by
  simp only [ofWord, Field.nibble_and_fieldBits, Field.get_and_fieldBits]

/-- Unpacking and packing keeps the low 44 bits and clears the others, and two words denote one
instruction exactly when those bits are the same in both. -/
theorem toWord_ofWord_lowBits (w v : Word) :
    (ofWord w).toWord = w &&& BitVec.ofNat 64 (2 ^ 44 - 1) ∧
      (ofWord w = ofWord v ↔ ∀ i < 44, w.getLsbD i = v.getLsbD i) := by
  have hmask : BitVec.ofNat 64 (2 ^ 44 - 1) = fieldBits := rfl
  rw [hmask, ← Field.and_fieldBits_eq_iff]
  refine ⟨toWord_ofWord w, ?_⟩
  constructor
  · intro h
    rw [← toWord_ofWord, h, toWord_ofWord]
  · intro h
    rw [← ofWord_and_fieldBits, h, ofWord_and_fieldBits]

/-- A packed instruction fits into the low 44 bits. What its word denotes is the instruction itself
exactly when all three operands have nibbles of their own. -/
theorem ofWord_toWord_eq_self_iff (i : Instruction) :
    (0 ≤ i.toWord.toInt ∧ i.toWord.toInt < 2 ^ 44) ∧
      (ofWord i.toWord = i ↔ ∀ o ∈ [i.destination, i.sourceA, i.sourceB], o.Packable) ∧
      ofWord i.toWord = i.packed := by
  refine ⟨?_, ?_, ofWord_toWord i⟩
  · have hw := Field.reserved_eq_zero_iff.mp i.reserved_toWord
    rw [BitVec.toInt_eq_toNat_of_lt (by omega)]
    omega
  · rw [ofWord_toWord, packed_eq_self_iff]
    simp [Packable]

end Instruction

end KeyIndexMachine
