import KeyIndexMachine.Proofs.LoadedProgram

/-!
# What loading changes

Loading a program is a row of stores behind two writes of registers, and a place that the row comes
to more than once holds the word that was stored there last. Under a key other than 0 the row comes
to no place twice, so each word is found at its index, each of these cells is allocated, and every
other cell is as it was. Under key 0 the row goes round the register file as often as it takes, over
`PK` and `PX` too, and memory is left alone.

The row ends at the first zero of the program, or at a zero that is put behind it. It can be copied
in one pass that looks at each word as it is stored, and `load_eq_copy` says that this is the same.
-/
namespace KeyIndexMachine

theorem Register.number_ofWord (w : Word) : (Register.ofWord w).number.val = w.toNat % 16 := by
  rw [Register.ofWord, Register.ofNibble, Register.number_ofNumber]
  exact BitVec.toNat_setWidth 4 w

/-- The indices of a register are those that leave its number as the remainder of 16. -/
theorem Address.place_eq_place_ofRegister_iff (j : Nat) (r : Register) :
    (⟨0#64, BitVec.ofNat 64 j⟩ : Address).place = (Address.ofRegister r).place ↔
      j % 16 = r.number.val := by
  have hj : (Register.ofWord (BitVec.ofNat 64 j)).number.val = j % 16 := by
    rw [Register.number_ofWord, BitVec.toNat_ofNat]
    omega
  rw [place_of_key_eq_zero rfl, place_ofRegister, Place.register.injEq, ← hj]
  constructor
  · intro h
    rw [h]
  · intro h
    rw [← Register.ofNumber_number r, ← Fin.ext h, Register.ofNumber_number]

namespace AddressSpace

variable {s : AddressSpace} {key index : Word} {ws : List Word} {a : Address}

/-- The row allocates the cells that it comes to. -/
theorem isAllocated_storeFrom_iff :
    (s.storeFrom key index ws).isAllocated a = true ↔
      s.isAllocated a = true ∨ (a.key ≠ 0#64 ∧
        ∃ j < ws.length, (⟨key, index + BitVec.ofNat 64 j⟩ : Address).place = a.place) := by
  induction ws generalizing s index with
  | nil => simp [storeFrom]
  | cons w ws ih =>
      have hstore : (s.store ⟨key, index⟩ w).isAllocated a = true ↔
          s.isAllocated a = true ∨ (a.key ≠ 0#64 ∧ (⟨key, index⟩ : Address).place = a.place) := by
        rw [store, isAllocated_update]
        simp [or_comm]
      have hrow : (∃ j < (w :: ws).length,
            (⟨key, index + BitVec.ofNat 64 j⟩ : Address).place = a.place) ↔
          (⟨key, index⟩ : Address).place = a.place ∨
            ∃ j < ws.length, (⟨key, index + 1 + BitVec.ofNat 64 j⟩ : Address).place = a.place := by
        rw [List.length_cons, Nat.exists_lt_succ_left, BitVec.add_zero]
        refine or_congr_right (exists_congr fun j => and_congr_right fun _ => ?_)
        rw [Word.add_ofNat_succ]
      rw [storeFrom, ih, hstore, hrow, or_assoc, ← and_or_left]

/-- Stores the words one after the other and stops behind the first zero. If none comes, it stores
one at the end. -/
def copyFrom (s : AddressSpace) (key index : Word) : List Word → AddressSpace
  | [] => s.store ⟨key, index⟩ 0#64
  | w :: ws =>
      let t := s.store ⟨key, index⟩ w
      if w = 0#64 then t else t.copyFrom key (index + 1) ws

theorem copyFrom_eq (s : AddressSpace) (key index : Word) (code : List Word) :
    s.copyFrom key index code = s.storeFrom key index (terminated code) := by
  induction code generalizing s index with
  | nil => rfl
  | cons w code ih =>
      rw [copyFrom]
      by_cases hw : w = 0#64
      · have ht : terminated (w :: code) = [w] := by simp [terminated, hw]
        rw [if_pos hw, ht]
        rfl
      · have ht : terminated (w :: code) = w :: terminated code := by simp [terminated, hw]
        rw [if_neg hw, ih, ht]
        rfl

theorem load_eq_copy (s : AddressSpace) (code : List Word) (key : Word) :
    s.load code key = ((s.setRegister .pk key).setRegister .px 0#64).copyFrom key 0#64 code := by
  rw [copyFrom_eq, load]

theorem register_setRegister (s : AddressSpace) (r q : Register) (w : Word) :
    (s.setRegister r w).register q = if r = q then w else s.register q :=
  s.registers.get_set r q w

theorem read_setRegister_of_key_ne (r : Register) (w : Word) (ha : a.key ≠ 0#64) :
    (s.setRegister r w).read a = s.read a := by
  rw [read, read, Address.place_of_key_ne_zero ha]
  rfl

theorem isAllocated_setRegister (r : Register) (w : Word) :
    (s.setRegister r w).isAllocated a = s.isAllocated a := rfl

section
variable {code : List Word}

theorem length_terminated_le (code : List Word) : (terminated code).length ≤ code.length + 1 := by
  rw [terminated, List.length_append, List.length_singleton]
  exact Nat.add_le_add_right (List.takeWhile_prefix _).length_le 1

theorem isAllocated_load_iff :
    (s.load code key).isAllocated a = true ↔
      s.isAllocated a = true ∨ (a.key ≠ 0#64 ∧ ∃ j < (terminated code).length,
        (⟨key, BitVec.ofNat 64 j⟩ : Address).place = a.place) := by
  rw [load, isAllocated_storeFrom_iff, isAllocated_setRegister, isAllocated_setRegister]
  simp only [BitVec.zero_add]

/-- A cell that the copy does not come to is neither written nor allocated. -/
theorem load_of_forall_ne (ha : a.key ≠ 0#64)
    (h : ∀ j < (terminated code).length, (⟨key, BitVec.ofNat 64 j⟩ : Address).place ≠ a.place) :
    (s.load code key).read a = s.read a ∧ (s.load code key).isAllocated a = s.isAllocated a := by
  constructor
  · rw [load, read_storeFrom_of_forall_ne, read_setRegister_of_key_ne _ _ ha,
      read_setRegister_of_key_ne _ _ ha]
    intro j hj
    rw [BitVec.zero_add]
    exact h j hj
  · rw [Bool.eq_iff_iff, isAllocated_load_iff]
    constructor
    · rintro (hs | ⟨-, j, hj, hp⟩)
      · exact hs
      · exact absurd hp (h j hj)
    · exact .inl

theorem register_load_of_key_ne (hk : key ≠ 0#64) (r : Register) :
    (s.load code key).register r =
      if r = .px then 0#64 else if r = .pk then key else s.register r := by
  rw [load, register, registers_storeFrom _ hk, ← register, register_setRegister,
    register_setRegister]
  simp only [eq_comm]

theorem register_load_of_last {r : Register} {j : Nat} (hj : j < (terminated code).length)
    (hr : j % 16 = r.number.val)
    (hl : ∀ i < (terminated code).length, i % 16 = r.number.val → i ≤ j) :
    (s.load code 0#64).register r = (terminated code)[j] := by
  rw [register_eq_read, load]
  refine read_storeFrom_of_last hj ?_ ?_
  · rw [BitVec.zero_add]
    exact (Address.place_eq_place_ofRegister_iff j r).mpr hr
  · intro i hi hji hp
    rw [BitVec.zero_add, Address.place_eq_place_ofRegister_iff] at hp
    exact absurd (hl i hi hp) (Nat.not_le_of_lt hji)

theorem register_load_of_none {r : Register}
    (h : ∀ j < (terminated code).length, j % 16 ≠ r.number.val) :
    (s.load code 0#64).register r = if r = .pk ∨ r = .px then 0#64 else s.register r := by
  rw [register_eq_read, load, read_storeFrom_of_forall_ne, ← register_eq_read, register_setRegister,
    register_setRegister]
  · by_cases hx : r = .px
    · simp [hx]
    · by_cases hk : r = .pk
      · simp [hk]
      · simp [hx, hk, Ne.symm hx, Ne.symm hk]
  · intro j hj hp
    rw [BitVec.zero_add, Address.place_eq_place_ofRegister_iff] at hp
    exact h j hj hp

end

/-- A cell of another area, or of a negative index, or behind the copy is not come to. -/
theorem place_ne_of_outside {n j : Nat} (hn : n ≤ 2 ^ 63) (hj : j < n) (hk : key ≠ 0#64)
    (ha : a.key ≠ key ∨ a.index.toInt < 0 ∨ n ≤ a.index.toInt) :
    (⟨key, BitVec.ofNat 64 j⟩ : Address).place ≠ a.place := by
  intro hp
  rcases Address.place_eq_place_iff.mp hp with he | ⟨h0, -⟩
  · have hi : (BitVec.ofNat 64 j).toInt = j := by
      rw [BitVec.toInt_eq_toNat_of_lt] <;> rw [BitVec.toNat_ofNat] <;> omega
    rw [← he] at ha
    simp only [ne_eq, not_true_eq_false, hi, false_or] at ha
    omega
  · exact hk h0

/-- Loading copies the words of a program up to its first zero, with one zero behind them, and it
sets `PK` and `PX`. Under a key other than 0 the copy is found in the area from index 0 on, in
allocated cells, and all other cells and registers are as before. Under key 0 memory is as before.
Each register holds the last word of the copy that falls to it; `PK` and `PX` hold zero if none
does, and the others what they held. -/
theorem load_effect (s : AddressSpace) {code : List Word} (hl : code.length < 2 ^ 63) (key : Word) :
    let copy := code.takeWhile (· != 0#64) ++ [0#64]
    let t := s.load code key
    (key ≠ 0#64 →
      (∀ (j : Nat) (hj : j < copy.length), t.read ⟨key, BitVec.ofNat 64 j⟩ = copy[j] ∧
        t.isAllocated ⟨key, BitVec.ofNat 64 j⟩ = true) ∧
      (∀ a : Address, a.key ≠ 0#64 → a.key ≠ key ∨ a.index.toInt < 0 ∨ copy.length ≤ a.index.toInt →
        t.read a = s.read a ∧ t.isAllocated a = s.isAllocated a) ∧
      t.register .pk = key ∧ t.register .px = 0#64 ∧
      ∀ r, r ≠ .pk → r ≠ .px → t.register r = s.register r) ∧
    (key = 0#64 →
      (∀ a : Address, a.key ≠ 0#64 →
        t.read a = s.read a ∧ t.isAllocated a = s.isAllocated a) ∧
      ∀ r,
        (∀ (j : Nat) (hj : j < copy.length), j % 16 = r.number.val →
          (∀ i < copy.length, i % 16 = r.number.val → i ≤ j) → t.register r = copy[j]) ∧
        ((∀ j < copy.length, j % 16 ≠ r.number.val) →
          t.register r = if r = .pk ∨ r = .px then 0#64 else s.register r)) := by
  intro copy t
  have hc : copy.length ≤ 2 ^ 63 := Nat.le_trans (length_terminated_le code) hl
  constructor
  · intro hk
    refine ⟨?_, ?_, ?_, ?_, ?_⟩
    · intro j hj
      constructor
      · have hw : t.wordAt key 0#64 j = copy[j] :=
          wordAt_storeFrom hk (Nat.le_trans hc (by decide)) hj
        rw [wordAt, BitVec.zero_add] at hw
        exact hw
      · exact isAllocated_load_iff.mpr (.inr ⟨hk, j, hj, rfl⟩)
    · intro a ha ho
      exact load_of_forall_ne ha fun j hj => place_ne_of_outside hc hj hk ho
    · exact register_load_of_key_ne hk .pk
    · exact register_load_of_key_ne hk .px
    · intro r hpk hpx
      rw [register_load_of_key_ne hk, if_neg hpx, if_neg hpk]
  · rintro rfl
    refine ⟨?_, fun r => ⟨?_, register_load_of_none⟩⟩
    · intro a ha
      refine load_of_forall_ne ha ?_
      intro j _ hp
      rcases Address.place_eq_place_iff.mp hp with he | ⟨-, h0, -⟩
      · exact ha (congrArg Address.key he).symm
      · exact ha h0
    · intro j hj
      exact register_load_of_last hj

/-- A program with a zero in its middle over a cell that was there, and a program of seventeen words
that goes round the register file. -/
theorem load_effect_around_registers :
    let s := (empty.store ⟨5#64, 2#64⟩ 7#64).setRegister .r1 9#64
    let short : List Word := [3#64, 0#64, 4#64]
    let long : List Word := List.replicate 17 3#64
    (short.length < 2 ^ 63 ∧ (s.load short 5#64).read ⟨5#64, 0#64⟩ = 3#64 ∧
      (s.load short 5#64).isAllocated ⟨5#64, 1#64⟩ = true ∧
      (s.load short 5#64).read ⟨5#64, 2#64⟩ = 7#64) ∧
    (long.length < 2 ^ 63 ∧ (s.load long 0#64).register .r1 = 0#64 ∧
      (s.load long 0#64).register .pk = 3#64 ∧
      (s.load long 0#64).read ⟨5#64, 2#64⟩ = 7#64) := by
  intro s short long
  have hs : short.length < 2 ^ 63 := by decide
  have hl : long.length < 2 ^ 63 := by decide
  obtain ⟨hcopy, hother, -⟩ := (load_effect s hs 5#64).1 (by decide)
  obtain ⟨hmemory, hregister⟩ := (load_effect s hl 0#64).2 rfl
  refine ⟨⟨hs, (hcopy 0 (by decide)).1, (hcopy 1 (by decide)).2, ?_⟩, hl, ?_, ?_, ?_⟩
  · exact (hother ⟨5#64, 2#64⟩ (by decide) (.inr (.inr (by decide)))).1
  · exact (hregister .r1).1 17 (by decide) rfl (by decide)
  · exact (hregister .pk).1 9 (by decide) rfl (by decide)
  · exact (hmemory ⟨5#64, 2#64⟩ (by decide)).1

end AddressSpace

end KeyIndexMachine
