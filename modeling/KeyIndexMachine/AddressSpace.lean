import KeyIndexMachine.Address
import KeyIndexMachine.RegisterFile
import Std.Data.ExtTreeMap

/-!
# The address space

One store for registers and memory. Memory is sparse: a cell that was never written reads as zero
and takes no room, and only writing to a cell allocates it, be it with a zero. Registers are not
cells and are never allocated. `read_update` and `isAllocated_update` say what a write does, in
terms of the places that addresses name.
-/
namespace KeyIndexMachine

structure AddressSpace where
  registers : RegisterFile
  memory : Std.ExtTreeMap Cell Word
  deriving DecidableEq

namespace AddressSpace

/-- Zero in every register and nothing in memory. -/
def empty : AddressSpace := ⟨RegisterFile.zeroed, ∅⟩

instance : Inhabited AddressSpace := ⟨empty⟩

def read (s : AddressSpace) (a : Address) : Word :=
  match a.place with
  | .register r => s.registers.get r
  | .memory c => s.memory.getD c 0#64

/-- Replaces a word by a function of itself. A cell of memory is allocated by this, whatever the
function makes of its contents. -/
def update (s : AddressSpace) (a : Address) (change : Word → Word) : AddressSpace :=
  match a.place with
  | .register r => { s with registers := s.registers.set r (change (s.registers.get r)) }
  | .memory c => { s with memory := s.memory.insert c (change (s.memory.getD c 0#64)) }

def store (s : AddressSpace) (a : Address) (w : Word) : AddressSpace := s.update a fun _ => w

def register (s : AddressSpace) (r : Register) : Word := s.registers.get r

def setRegister (s : AddressSpace) (r : Register) (w : Word) : AddressSpace :=
  { s with registers := s.registers.set r w }

def isAllocated (s : AddressSpace) (a : Address) : Bool :=
  match a.place with
  | .register _ => false
  | .memory c => s.memory.contains c

/-- The number of allocated cells. -/
def size (s : AddressSpace) : Nat := s.memory.size

/-- The allocated cells and their contents, in the order of cells. -/
def cells (s : AddressSpace) : List (Cell × Word) := s.memory.toList

/-- Stores words at consecutive indices, which wrap around. -/
def storeFrom (s : AddressSpace) (key index : Word) : List Word → AddressSpace
  | [] => s
  | w :: ws => (s.store ⟨key, index⟩ w).storeFrom key (index + 1) ws

/-- The words before the first zero, and one zero after them. -/
def terminated (code : List Word) : List Word := code.takeWhile (· != 0#64) ++ [0#64]

/-- Points `PK` and `PX` at the start of an area and copies a program there, up to and including
its terminator. Under key 0 the copy goes over the registers, those two among them. -/
def load (s : AddressSpace) (code : List Word) (key : Word) : AddressSpace :=
  ((s.setRegister .pk key).setRegister .px 0#64).storeFrom key 0#64 (terminated code)

@[simp] theorem read_empty (a : Address) : empty.read a = 0#64 := by
  unfold read empty
  split <;> simp

@[simp] theorem isAllocated_empty (a : Address) : empty.isAllocated a = false := by
  unfold isAllocated empty
  split <;> simp

theorem read_update (s : AddressSpace) (a b : Address) (change : Word → Word) :
    (s.update a change).read b = if a.place = b.place then change (s.read a) else s.read b := by
  unfold read update
  cases ha : a.place with
  | register r =>
    cases hb : b.place with
    | register q => simp [RegisterFile.get_set]
    | memory d => simp
  | memory c =>
    cases hb : b.place with
    | register q => simp
    | memory d => simp [Std.ExtTreeMap.getD_insert]

theorem read_store (s : AddressSpace) (a b : Address) (w : Word) :
    (s.store a w).read b = if a.place = b.place then w else s.read b :=
  s.read_update a b _

/-- A write allocates the cell it names and no other. -/
theorem isAllocated_update (s : AddressSpace) (a b : Address) (change : Word → Word) :
    (s.update a change).isAllocated b =
      ((decide (b.key ≠ 0#64) && decide (a.place = b.place)) || s.isAllocated b) := by
  unfold isAllocated update
  by_cases h : b.key = 0#64
  · simp [Address.place_of_key_eq_zero h, h]
  · rw [Address.place_of_key_ne_zero h]
    cases ha : a.place with
    | register r => simp [h]
    | memory c =>
      rw [Bool.eq_iff_iff]
      simp [h, Std.ExtTreeMap.contains_insert]

/-- A register is the place in area 0 that its number names. -/
theorem register_eq_read (s : AddressSpace) (r : Register) :
    s.register r = s.read (Address.ofRegister r) := by
  simp [register, read]

theorem setRegister_eq_store (s : AddressSpace) (r : Register) (w : Word) :
    s.setRegister r w = s.store (Address.ofRegister r) w := by
  simp [setRegister, store, update]

theorem read_cell_address (s : AddressSpace) (c : Cell) :
    s.read c.address = s.memory[c]?.getD 0#64 := by
  rw [read, Address.place_cell_address]
  exact Std.ExtTreeMap.getD_eq_getD_getElem?

theorem isAllocated_cell_address (s : AddressSpace) (c : Cell) :
    s.isAllocated c.address = s.memory[c]?.isSome := by
  rw [isAllocated, Address.place_cell_address]
  exact Std.ExtTreeMap.contains_eq_isSome_getElem?

theorem getElem?_memory_store (s : AddressSpace) (a : Address) (w : Word) (c : Cell) :
    (s.store a w).memory[c]? = if a = c.address then some w else s.memory[c]? := by
  simp only [← Address.place_eq_memory_iff, store, update]
  cases a.place with
  | register r => simp
  | memory d => simp [Std.ExtTreeMap.getElem?_insert]

theorem registers_store (s : AddressSpace) {a : Address} (h : a.key ≠ 0#64) (w : Word) :
    (s.store a w).registers = s.registers := by
  rw [store, update, Address.place_of_key_ne_zero h]

end AddressSpace

end KeyIndexMachine
