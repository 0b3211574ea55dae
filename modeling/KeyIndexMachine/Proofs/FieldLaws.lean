import KeyIndexMachine.Instruction.Encoding

/-!
# Laws of the fields of a word

A field is an interval of bits: `offset` bits lie below it and `width` bits belong to it. From what
`get` and `set` do to single bits follow the laws of the ten fields as views of a word that do not
disturb each other, and that two words with equal reserved bits are equal when all their fields
are. So a sequence of edits comes down to the value that it puts into each field last, in whatever
order the fields are filled. Packing is such a sequence: each field of a packed word holds what the
instruction gives it, and the reserved bits are clear.
-/
namespace KeyIndexMachine.Field

/-- The number of bits in the field. -/
def width : Field → Nat
  | opcode => 8
  | _ => 4

theorem width_le (f : Field) : f.width ≤ 8 := by cases f <;> decide

theorem offset_add_width_le (f : Field) : f.offset + f.width ≤ 44 := by cases f <;> decide

theorem disjoint {f g : Field} (h : f ≠ g) :
    f.offset + f.width ≤ g.offset ∨ g.offset + g.width ≤ f.offset := by
  revert h
  cases f <;> cases g <;> decide

theorem exists_bit {i : Nat} (hi : i < 44) :
    ∃ f : Field, f.offset ≤ i ∧ i < f.offset + f.width := by
  have h : ∀ i < 44, ∃ f ∈ all, f.offset ≤ i ∧ i < f.offset + f.width := by decide
  obtain ⟨f, -, hf⟩ := h i hi
  exact ⟨f, hf⟩

theorem getLsbD_mask (f : Field) (i : Nat) : f.mask.getLsbD i = decide (i < f.width) := by
  have hm : f.mask = BitVec.ofNat 64 (2 ^ f.width - 1) := by cases f <;> rfl
  have hw := f.width_le
  rw [hm, BitVec.getLsbD_ofNat, Nat.testBit_two_pow_sub_one]
  by_cases hi : i < f.width
  · simp [hi, show i < 64 by omega]
  · simp [hi]

theorem getLsbD_get (f : Field) (w : Word) (i : Nat) :
    (f.get w).getLsbD i = (decide (i < f.width) && w.getLsbD (f.offset + i)) := by
  simp only [get, BitVec.getLsbD_and, BitVec.getLsbD_ushiftRight, getLsbD_mask]
  exact Bool.and_comm _ _

theorem getLsbD_set (f : Field) (w v : Word) {i : Nat} (hi : i < 64) :
    (f.set w v).getLsbD i =
      if f.offset ≤ i ∧ i < f.offset + f.width then v.getLsbD (i - f.offset)
      else w.getLsbD i := by
  have hw : (i - f.offset < f.width) ↔ (i < f.offset + f.width ∨ i < f.offset) := by
    have := f.width_le
    have : 0 < f.width := by cases f <;> decide
    omega
  simp only [set, BitVec.getLsbD_or, BitVec.getLsbD_and, BitVec.getLsbD_not,
    BitVec.getLsbD_shiftLeft, getLsbD_mask, hi, decide_true, Bool.true_and]
  by_cases hl : i < f.offset
  · simp [hl, show ¬ f.offset ≤ i by omega]
  · by_cases hr : i < f.offset + f.width
    · simp [hl, hr, hw, show f.offset ≤ i by omega]
    · simp [hl, hr, hw]

/-- A shift that keeps the sign reads the same: its copies of the sign stay above the field. -/
theorem get_eq_sshiftRight (f : Field) (w : Word) :
    f.get w = w.sshiftRight f.offset &&& f.mask := by
  apply BitVec.eq_of_getLsbD_eq
  intro i hi
  have ho := f.offset_add_width_le
  rw [getLsbD_get, BitVec.getLsbD_and, getLsbD_mask, BitVec.getLsbD_sshiftRight]
  by_cases hw : i < f.width
  · simp [hw, hi, show f.offset + i < 64 by omega]
  · simp [hw]

/-- The bits that belong to no field. -/
def reserved (w : Word) : Word := w &&& ~~~fieldBits

theorem getLsbD_fieldBits (i : Nat) : fieldBits.getLsbD i = decide (i < 44) := by
  have hm : fieldBits = BitVec.ofNat 64 (2 ^ 44 - 1) := rfl
  rw [hm, BitVec.getLsbD_ofNat, Nat.testBit_two_pow_sub_one]
  by_cases hi : i < 44
  · simp [hi, show i < 64 by omega]
  · simp [hi]

theorem reserved_eq_reserved_iff {w v : Word} :
    reserved w = reserved v ↔ ∀ i, 44 ≤ i → i < 64 → w.getLsbD i = v.getLsbD i := by
  constructor
  · intro h i hl hi
    have hb := congrArg (fun u : Word => u.getLsbD i) h
    simp only [reserved, BitVec.getLsbD_and, BitVec.getLsbD_not, getLsbD_fieldBits, hi,
      Nat.not_lt.mpr hl, decide_true, decide_false, Bool.not_false, Bool.and_true] at hb
    exact hb
  · intro h
    apply BitVec.eq_of_getLsbD_eq
    intro i hi
    rw [reserved, reserved, BitVec.getLsbD_and, BitVec.getLsbD_and, BitVec.getLsbD_not,
      getLsbD_fieldBits]
    by_cases hl : i < 44
    · simp [hl]
    · rw [h i (Nat.not_lt.mp hl) hi]

@[simp] theorem reserved_set (f : Field) (w v : Word) : reserved (f.set w v) = reserved w := by
  refine reserved_eq_reserved_iff.mpr ?_
  intro i hl hi
  have ho := f.offset_add_width_le
  rw [getLsbD_set f w v hi, if_neg (by omega)]

@[simp] theorem reserved_and_fieldBits (w : Word) : reserved (w &&& fieldBits) = 0#64 := by
  simp [reserved, BitVec.and_assoc]

theorem get_and_fieldBits (f : Field) (w : Word) : f.get (w &&& fieldBits) = f.get w := by
  apply BitVec.eq_of_getLsbD_eq
  intro i hi
  have ho := f.offset_add_width_le
  rw [getLsbD_get, getLsbD_get, BitVec.getLsbD_and, getLsbD_fieldBits]
  by_cases hw : i < f.width
  · simp [show f.offset + i < 44 by omega]
  · simp [hw]

@[simp] theorem get_set_self (f : Field) (w v : Word) : f.get (f.set w v) = v &&& f.mask := by
  apply BitVec.eq_of_getLsbD_eq
  intro i hi
  have ho := f.offset_add_width_le
  rw [getLsbD_get, BitVec.getLsbD_and, getLsbD_mask]
  by_cases hw : i < f.width
  · rw [getLsbD_set f w v (by omega), if_pos (by omega)]
    simp [hw]
  · simp [hw]

theorem get_set_of_ne {f g : Field} (h : f ≠ g) (w v : Word) : g.get (f.set w v) = g.get w := by
  apply BitVec.eq_of_getLsbD_eq
  intro i hi
  have hd := disjoint h
  have ho := g.offset_add_width_le
  rw [getLsbD_get, getLsbD_get]
  by_cases hw : i < g.width
  · rw [getLsbD_set f w v (by omega), if_neg (by omega)]
  · simp [hw]

theorem get_and_mask (f : Field) (w : Word) : f.get w &&& f.mask = f.get w := by
  rw [get, BitVec.and_assoc, BitVec.and_self]

@[simp] theorem get_zero (f : Field) : f.get 0#64 = 0#64 := by cases f <;> rfl

@[simp] theorem get_allOnes (f : Field) : f.get (BitVec.allOnes 64) = f.mask := by
  cases f <;> rfl

/-- A word is its reserved bits and its fields. -/
theorem eq_of_get_eq {w v : Word} (hr : reserved w = reserved v)
    (h : ∀ f : Field, f.get w = f.get v) : w = v := by
  apply BitVec.eq_of_getLsbD_eq
  intro i hi
  by_cases hw : i < 44
  · obtain ⟨f, hl, hu⟩ := exists_bit hw
    have hf := congrArg (fun u : Word => u.getLsbD (i - f.offset)) (h f)
    simp only [getLsbD_get] at hf
    rw [show f.offset + (i - f.offset) = i by omega] at hf
    simpa [show i - f.offset < f.width by omega] using hf
  · exact reserved_eq_reserved_iff.mp hr i (Nat.not_lt.mp hw) hi

theorem set_get (f : Field) (w : Word) : f.set w (f.get w) = w := by
  refine eq_of_get_eq (reserved_set f w _) ?_
  intro k
  by_cases hk : f = k
  · subst hk
    rw [get_set_self, get_and_mask]
  · rw [get_set_of_ne hk]

/-- Puts values into fields, the first pair first. -/
def setAll (w : Word) (edits : List (Field × Word)) : Word :=
  edits.foldl (fun u e => e.1.set u e.2) w

/-- The value put into the field last, if any was. -/
def lastValue (f : Field) (edits : List (Field × Word)) : Option Word := edits.reverse.lookup f

theorem lastValue_cons (f g : Field) (v : Word) (edits : List (Field × Word)) :
    lastValue f ((g, v) :: edits) = (lastValue f edits).or (if g = f then some v else none) := by
  rw [lastValue, List.reverse_cons, List.lookup_append, lastValue]
  by_cases h : g = f
  · simp [h]
  · simp [List.lookup_cons, h, beq_false_of_ne (Ne.symm h)]

@[simp] theorem reserved_setAll (w : Word) (edits : List (Field × Word)) :
    reserved (setAll w edits) = reserved w := by
  induction edits generalizing w with
  | nil => rfl
  | cons e edits ih => exact (ih (e.1.set w e.2)).trans (reserved_set e.1 w e.2)

/-- A field holds as much of its last value as fits, or what it held before. -/
theorem get_setAll (f : Field) (w : Word) (edits : List (Field × Word)) :
    f.get (setAll w edits) = ((lastValue f edits).map (· &&& f.mask)).getD (f.get w) := by
  induction edits generalizing w with
  | nil => rfl
  | cons e edits ih =>
      obtain ⟨g, v⟩ := e
      rw [lastValue_cons]
      refine (ih (g.set w v)).trans ?_
      cases lastValue f edits with
      | some u => rfl
      | none =>
          by_cases h : g = f
          · subst h
            simp
          · simp [h, get_set_of_ne h]

theorem setAll_congr {edits edits' : List (Field × Word)}
    (h : ∀ f : Field,
      (lastValue f edits).map (· &&& f.mask) = (lastValue f edits').map (· &&& f.mask))
    (w : Word) : setAll w edits = setAll w edits' := by
  refine eq_of_get_eq (by rw [reserved_setAll, reserved_setAll]) ?_
  intro f
  rw [get_setAll, get_setAll, h f]

/-- Two optional values that agree whatever a word offers in their place are the same: the zero
word and the word of ones differ in every field. -/
theorem eq_of_getD_get_eq {f : Field} {a b : Option Word}
    (h : ∀ w, a.getD (f.get w) = b.getD (f.get w)) : a = b := by
  have hm : f.mask ≠ 0#64 := by cases f <;> decide
  have hz := h 0#64
  have ho := h (BitVec.allOnes 64)
  rw [get_zero] at hz
  rw [get_allOnes] at ho
  cases a with
  | none =>
      cases b with
      | none => rfl
      | some v => exact absurd (ho.trans hz.symm) hm
  | some u =>
      cases b with
      | none => exact absurd (ho.symm.trans hz) hm
      | some v => exact congrArg some hz

theorem set_set (f : Field) (w u v : Word) : f.set (f.set w u) v = f.set w v := by
  refine @setAll_congr [(f, u), (f, v)] [(f, v)] ?_ w
  intro k
  by_cases hk : f = k
  · simp [lastValue_cons, hk]
  · simp [lastValue_cons, hk]

theorem set_comm {f g : Field} (h : f ≠ g) (w u v : Word) :
    f.set (g.set w u) v = g.set (f.set w v) u := by
  refine @setAll_congr [(g, u), (f, v)] [(f, v), (g, u)] ?_ w
  intro k
  by_cases hf : f = k
  · subst hf
    simp [lastValue_cons, h.symm]
  · simp [lastValue_cons, hf]

/-- Two sequences of edits do the same to every word exactly when they leave the same in each
field. -/
theorem setAll_eq_setAll_iff {edits edits' : List (Field × Word)} :
    (∀ w, setAll w edits = setAll w edits') ↔
      ∀ f : Field,
        (lastValue f edits).map (· &&& f.mask) = (lastValue f edits').map (· &&& f.mask) := by
  constructor
  · intro h f
    refine eq_of_getD_get_eq (f := f) ?_
    intro w
    rw [← get_setAll, ← get_setAll, h w]
  · exact setAll_congr

/-- Distinct fields are views of a word that do not disturb each other, whatever the signs of the
word and of the values are; a shift that keeps the sign reads the same. What is put into a field is
read from it, cut to the field, while the other fields and the reserved bits stay; putting back what
was read changes nothing, the later of two values stays, and edits of two fields commute. Reserved
bits and fields make up the word, so a sequence of edits comes down to what it leaves in each
field. -/
theorem independent_views {f g : Field} (h : f ≠ g) (w u v : Word) :
    f.get w = w.sshiftRight f.offset &&& f.mask ∧
    f.get (f.set w v) = v &&& f.mask ∧
    g.get (f.set w v) = g.get w ∧
    f.set w (f.get w) = w ∧
    f.set (f.set w u) v = f.set w v ∧
    f.set (g.set w u) v = g.set (f.set w v) u ∧
    (∀ i, 44 ≤ i → i < 64 → (f.set w v).getLsbD i = w.getLsbD i) ∧
    (∀ x : Word, (∀ i, 44 ≤ i → i < 64 → w.getLsbD i = x.getLsbD i) →
      (∀ k : Field, k.get w = k.get x) → w = x) ∧
    (∀ edits edits' : List (Field × Word),
      (∀ x, setAll x edits = setAll x edits') ↔
        ∀ k : Field,
          (lastValue k edits).map (· &&& k.mask) = (lastValue k edits').map (· &&& k.mask)) := by
  refine ⟨get_eq_sshiftRight f w, get_set_self f w v, get_set_of_ne h w v, set_get f w,
    set_set f w u v, set_comm h w u v, ?_, ?_, ?_⟩
  · exact reserved_eq_reserved_iff.mp (reserved_set f w v)
  · intro x hr hx
    exact eq_of_get_eq (reserved_eq_reserved_iff.mpr hr) hx
  · intro edits edits'
    exact setAll_eq_setAll_iff

/-- The top field of a word with all bits set, below the copies of the sign, takes a negative value
that is too long for it. -/
theorem independent_views_all_bits_set :
    compareA ≠ opcode ∧
    (compareA.get (-1#64) = (-1#64).sshiftRight 40 &&& 0xF#64 ∧
      compareA.get (compareA.set (-1#64) (-3#64)) = 0xD#64 ∧
      opcode.get (compareA.set (-1#64) (-3#64)) = 0xFF#64 ∧
      (compareA.set (-1#64) (-3#64)).getLsbD 44 = true) ∧
    compareA.set (opcode.set (-1#64) 0x1FE#64) (-3#64) =
      opcode.set (compareA.set (-1#64) (-3#64)) 0x1FE#64 ∧
    -1#64 = opcode.set (compareA.set (-1#64) 0xFF#64) (-1#64) ∧
    ∀ x, setAll x [(compareA, 1#64), (opcode, 0x1FE#64), (compareA, -3#64)] =
      setAll x [(compareA, 0xD#64), (opcode, -2#64)] := by
  have hne : compareA ≠ opcode := by decide
  obtain ⟨hshift, hself, hother, -, -, hcomm, hreserved, hword, hedits⟩ :=
    independent_views hne (-1#64) 0x1FE#64 (-3#64)
  refine ⟨hne, ⟨hshift, hself, ?_, ?_⟩, hcomm, hword _ ?_ ?_, (hedits _ _).mpr ?_⟩
  · exact hother.trans (by decide)
  · exact (hreserved 44 (by decide) (by decide)).trans (by decide)
  · exact reserved_eq_reserved_iff.mp (by decide)
  · intro k
    cases k <;> rfl
  · intro k
    cases k <;> rfl

end KeyIndexMachine.Field

namespace KeyIndexMachine.Instruction

/-- Packing puts one value into each field of the zero word. -/
theorem toWord_eq_setAll (i : Instruction) :
    i.toWord = Field.setAll 0#64 (Field.all.map fun f => (f, i.fieldValue f)) := by
  rw [toWord, Field.setAll, List.foldl_map]
  rfl

@[simp] theorem reserved_toWord (i : Instruction) : Field.reserved i.toWord = 0#64 := by
  rw [toWord_eq_setAll, Field.reserved_setAll]
  rfl

theorem fieldValue_and_mask (i : Instruction) (f : Field) :
    i.fieldValue f &&& f.mask = i.fieldValue f := by
  have hn : ∀ n : Nibble, n.setWidth 64 &&& 0xF#64 = n.setWidth 64 := by decide
  have hb : ∀ b : Byte, b.setWidth 64 &&& 0xFF#64 = b.setWidth 64 := by decide
  cases f with
  | opcode => exact hb _
  | _ => exact hn _

@[simp] theorem get_toWord (i : Instruction) (f : Field) : f.get i.toWord = i.fieldValue f := by
  have hl : Field.lastValue f (Field.all.map fun g => (g, i.fieldValue g)) =
      some (i.fieldValue f) := by
    cases f <;> rfl
  rw [toWord_eq_setAll, Field.get_setAll, hl]
  exact i.fieldValue_and_mask f

end KeyIndexMachine.Instruction
