import KeyIndexMachine.Register

/-!
# Addresses and the places they name

An address is a pair of a key and an index. Key 0 is the register file, with indices taken modulo
16, so many addresses name one register. Every other pair is a cell of memory of its own. Cells
are ordered as pairs of signed numbers.
-/
namespace KeyIndexMachine

structure Address where
  key : Word
  index : Word
  deriving DecidableEq, Repr

/-- An address outside the register file. -/
structure Cell where
  key : Word
  index : Word
  key_ne_zero : key ≠ 0#64
  deriving DecidableEq, Repr

inductive Place where
  | register (r : Register)
  | memory (c : Cell)
  deriving DecidableEq, Repr

def Cell.address (c : Cell) : Address := ⟨c.key, c.index⟩

namespace Address

def isRegister (a : Address) : Bool := a.key == 0#64

def place (a : Address) : Place :=
  if h : a.key = 0#64 then .register (Register.ofWord a.index) else .memory ⟨a.key, a.index, h⟩

/-- A register by its name, a cell by its key and index in hexadecimal. -/
def text (a : Address) : String :=
  if a.isRegister then (Register.ofWord a.index).name else a.key.hex ++ "/" ++ a.index.hex

def ofRegister (r : Register) : Address := ⟨0#64, r.word⟩

theorem place_of_key_eq_zero {a : Address} (h : a.key = 0#64) :
    a.place = .register (Register.ofWord a.index) := by
  simp [place, h]

theorem place_of_key_ne_zero {a : Address} (h : a.key ≠ 0#64) :
    a.place = .memory ⟨a.key, a.index, h⟩ := by
  simp [place, h]

theorem text_of_key_ne_zero {a : Address} (h : a.key ≠ 0#64) :
    a.text = a.key.hex ++ "/" ++ a.index.hex := by
  simp [text, isRegister, h]

@[simp] theorem place_ofRegister (r : Register) : (ofRegister r).place = .register r := by
  simp [place, ofRegister]

@[simp] theorem place_cell_address (c : Cell) : c.address.place = .memory c := by
  simp [place, Cell.address, c.key_ne_zero]

theorem place_eq_memory_iff {a : Address} {c : Cell} :
    a.place = .memory c ↔ a = c.address := by
  constructor
  · intro h
    by_cases hk : a.key = 0#64
    · rw [place_of_key_eq_zero hk] at h
      cases h
    · rw [place_of_key_ne_zero hk, Place.memory.injEq] at h
      rw [← h]
      rfl
  · intro h
    rw [h, place_cell_address]

/-- Two addresses name one place when they are equal pairs outside the register file, or lie in it
with indices that agree modulo 16. -/
theorem place_eq_place_iff {a b : Address} :
    a.place = b.place ↔
      a = b ∨ (a.key = 0#64 ∧ b.key = 0#64 ∧ a.index.setWidth 4 = b.index.setWidth 4) := by
  obtain ⟨k, x⟩ := a
  obtain ⟨l, y⟩ := b
  have hw : Register.ofWord x = Register.ofWord y ↔ x.setWidth 4 = y.setWidth 4 := by
    constructor
    · intro h
      have hn := congrArg Register.nibble h
      simpa only [Register.ofWord, Register.nibble_ofNibble] using hn
    · intro h
      simp only [Register.ofWord, h]
  by_cases hk : k = 0#64 <;> by_cases hl : l = 0#64
  · subst hk hl
    simp only [place, dite_true, Place.register.injEq, hw, Address.mk.injEq, true_and]
    constructor
    · exact Or.inr
    · rintro (rfl | h)
      · rfl
      · exact h
  · have hkl : k ≠ l := by
      rintro rfl
      exact hl hk
    simp [place, hk, hl, Ne.symm hl]
  · simp [place, hk, hl]
  · simp [place, hk, hl]

end Address

namespace Cell

instance : Ord Cell where
  compare := compareLex (compareOn fun c => c.key.toInt) (compareOn fun c => c.index.toInt)

instance : Std.TransOrd Cell :=
  inferInstanceAs (Std.TransCmp
    (compareLex (compareOn fun c : Cell => c.key.toInt) (compareOn fun c : Cell => c.index.toInt)))

instance : Std.LawfulEqOrd Cell where
  compare_self := Std.ReflCmp.compare_self
  eq_of_compare {c d} h := by
    obtain ⟨k, x, hk⟩ := c
    obtain ⟨l, y, hl⟩ := d
    have h' : compareLex (compareOn fun c : Cell => c.key.toInt)
        (compareOn fun c : Cell => c.index.toInt) ⟨k, x, hk⟩ ⟨l, y, hl⟩ = .eq := h
    simp only [compareLex, compareOn, Ordering.then_eq_eq, Std.LawfulEqOrd.compare_eq_iff_eq,
      BitVec.toInt_inj] at h'
    obtain ⟨rfl, rfl⟩ := h'
    rfl

theorem address_injective {c d : Cell} (h : c.address = d.address) : c = d := by
  obtain ⟨k, x, hk⟩ := c
  obtain ⟨l, y, hl⟩ := d
  cases h
  rfl

/-- One cell comes before another when its key is smaller, or the keys are the same and its index
is smaller. -/
theorem compare_eq_lt_iff {c d : Cell} :
    compare c d = .lt ↔
      c.key.toInt < d.key.toInt ∨ (c.key = d.key ∧ c.index.toInt < d.index.toInt) := by
  have h : compare c d = (compare c.key.toInt d.key.toInt).then
      (compare c.index.toInt d.index.toInt) := rfl
  rw [h, Ordering.then_eq_lt, Int.compare_eq_lt, Int.compare_eq_lt, Int.compare_eq_eq,
    BitVec.toInt_inj]

end Cell

end KeyIndexMachine
