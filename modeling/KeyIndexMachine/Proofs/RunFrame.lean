import KeyIndexMachine.Proofs.WriteRecord
import Mathlib.Data.Nat.Count

/-!
# The frame of a run

A step changes `PX`, and the one place that the destination of its instruction names, if there is
an instruction to carry out. Fetching and looking at sources change nothing and allocate nothing,
and neither does an instruction that is skipped or refused. So after any number of steps a cell that
no instruction has written to is as it was, allocated or not, and a register other than `PX` that
none has written to holds what it held. No cell is given up, and there are at most as many new cells
as instructions that were carried out.

Which places these are is only known as the run goes: the registers that name a destination may be
written to in the same run, and so may the program.
-/
namespace KeyIndexMachine

namespace Instruction

variable {i : Instruction} {s : AddressSpace} {a : Address}

theorem exists_operation?_iff :
    (∃ o, i.operation? = some o) ↔ i.opcode = 0xFF ∨ i.opcode = 0xFE := by
  simp only [operation?, Operation.ofOpcode?_eq_some_iff]
  constructor
  · rintro ⟨o, ho⟩
    cases o with
    | add => exact .inl ho.symm
    | sub => exact .inr ho.symm
  · rintro (h | h)
    · exact ⟨.add, h.symm⟩
    · exact ⟨.sub, h.symm⟩

theorem exists_delivery?_iff :
    (∃ w, i.delivery? s = some (a, w)) ↔
      i.proceeds s.registers = true ∧ (i.opcode = 0xFF ∨ i.opcode = 0xFE) ∧
        s.addressOf? i.destination = some a := by
  rw [← exists_operation?_iff, delivery?]
  cases ho : i.operation? with
  | none => simp
  | some o =>
      cases hd : s.addressOf? i.destination with
      | none => simp
      | some b =>
          by_cases hp : i.proceeds s.registers = true
          · simp [hp]
          · simp [hp]

end Instruction

/-- Whatever is in the registers, an operand that is not a constant is somewhere. -/
theorem AddressSpace.exists_addressOf?_iff {s : AddressSpace} {o : Operand} :
    (∃ a, s.addressOf? o = some a) ↔ o.isConstant = false := by
  cases o with
  | register r => simp [addressOf?, Operand.isConstant]
  | constant v => simp [addressOf?, Operand.isConstant]
  | indirect k x => simp [addressOf?, Operand.isConstant]

theorem AddressSpace.size_store_le (s : AddressSpace) (a : Address) (w : Word) :
    (s.store a w).size ≤ s.size + 1 := by
  rw [store, update]
  cases a.place with
  | register r => exact Nat.le_succ _
  | memory c => exact Std.ExtTreeMap.size_insert_le

namespace Machine

variable {m : Machine} {c : Cell} {r : Register}

/-- The next step takes an instruction, it is not skipped, and nothing is against it. -/
structure CarriesOut (m : Machine) : Prop where
  running : m.state = .running
  word : m.space.fetch.word ≠ 0#64
  leash : m.leash ≠ 0
  proceeds : m.space.fetch.instruction.proceeds m.space.fetch.space.registers = true
  opcode : m.space.fetch.instruction.opcode = 0xFF ∨ m.space.fetch.instruction.opcode = 0xFE
  destination : m.space.fetch.instruction.destination.isConstant = false

instance (m : Machine) : Decidable m.CarriesOut :=
  decidable_of_iff
    (m.state = .running ∧ m.space.fetch.word ≠ 0#64 ∧ m.leash ≠ 0 ∧
      m.space.fetch.instruction.proceeds m.space.fetch.space.registers = true ∧
      (m.space.fetch.instruction.opcode = 0xFF ∨ m.space.fetch.instruction.opcode = 0xFE) ∧
      m.space.fetch.instruction.destination.isConstant = false)
    ⟨fun ⟨hs, hw, hl, hp, ho, hd⟩ => ⟨hs, hw, hl, hp, ho, hd⟩,
      fun h => ⟨h.running, h.word, h.leash, h.proceeds, h.opcode, h.destination⟩⟩

/-- The place that the destination of the next instruction names. A direct one is a register. An
indirect one is a cell, unless its key register holds zero; then it is the register that the low
four bits of its index register select. -/
def destination? (m : Machine) : Option Place :=
  match m.space.fetch.instruction.destination with
  | .register r => some (.register r)
  | .constant _ => none
  | .indirect k x =>
      some (Address.place ⟨m.space.fetch.space.register k, m.space.fetch.space.register x⟩)

/-- The next step carries out an instruction with this destination. -/
def WritesTo (m : Machine) (p : Place) : Prop := m.CarriesOut ∧ m.destination? = some p

/-- What so many steps of a machine leave alone, where `t` is the space behind them. -/
structure Framed (m : Machine) (n : Nat) (t : AddressSpace) : Prop where
  cell : ∀ c : Cell, (∀ k < n, ¬ (m.afterSteps k).WritesTo (.memory c)) →
    t.read c.address = m.space.read c.address ∧
      t.isAllocated c.address = m.space.isAllocated c.address
  register : ∀ r, r ≠ .px → (∀ k < n, ¬ (m.afterSteps k).WritesTo (.register r)) →
    t.register r = m.space.register r
  kept : ∀ a, m.space.isAllocated a = true → t.isAllocated a = true
  size_le : t.size ≤ m.space.size + Nat.count (fun k => (m.afterSteps k).CarriesOut) n
  unwritten : ∀ c : Cell, t.isAllocated c.address = false → t.read c.address = 0#64

theorem destination?_eq (m : Machine) :
    m.destination? =
      (m.space.fetch.space.addressOf? m.space.fetch.instruction.destination).map Address.place := by
  unfold destination? AddressSpace.addressOf?
  cases m.space.fetch.instruction.destination with
  | register r => simp
  | constant v => rfl
  | indirect k x => rfl

/-- Apart from `PX`, a step changes the space by one store to the place that its instruction names,
or not at all. -/
theorem space_step_cases (m : Machine) :
    (¬ m.CarriesOut ∧ m.step.machine.space = m.moved) ∨
      ∃ a w, m.WritesTo a.place ∧ m.step.machine.space = m.moved.store a w := by
  rw [space_step]
  cases hd : m.stored? with
  | some d =>
      obtain ⟨a, w⟩ := d
      obtain ⟨hs, hw, hl, -⟩ := done_of_stored? hd
      rw [stored?, if_pos ⟨hs, hw, hl⟩] at hd
      obtain ⟨hp, ho, ha⟩ := Instruction.exists_delivery?_iff.mp ⟨w, hd⟩
      have hc := AddressSpace.exists_addressOf?_iff.mp ⟨a, ha⟩
      refine .inr ⟨a, w, ⟨⟨hs, hw, hl, hp, ho, hc⟩, ?_⟩, rfl⟩
      rw [destination?_eq, ha]
      rfl
  | none =>
      refine .inl ⟨?_, rfl⟩
      intro h
      obtain ⟨a, ha⟩ := AddressSpace.exists_addressOf?_iff.mpr h.destination
      obtain ⟨w, hw⟩ := Instruction.exists_delivery?_iff.mpr ⟨h.proceeds, h.opcode, ha⟩
      rw [stored?, if_pos ⟨h.running, h.word, h.leash⟩, hw] at hd
      cases hd

theorem register_moved (hr : r ≠ .px) : m.moved.register r = m.space.register r := by
  unfold moved
  split
  · rfl
  · exact RegisterFile.get_set_of_ne _ (Ne.symm hr) _

theorem getElem?_memory_step_of_not (h : ¬ m.WritesTo (.memory c)) :
    m.step.machine.space.memory[c]? = m.space.memory[c]? := by
  rcases m.space_step_cases with ⟨-, hs⟩ | ⟨a, w, ha, hs⟩
  · rw [hs, memory_moved]
  · rw [hs, AddressSpace.getElem?_memory_store, memory_moved, if_neg]
    intro hac
    rw [hac, Address.place_cell_address] at ha
    exact h ha

theorem register_step_of_not (hr : r ≠ .px) (h : ¬ m.WritesTo (.register r)) :
    m.step.machine.space.register r = m.space.register r := by
  rcases m.space_step_cases with ⟨-, hs⟩ | ⟨a, w, ha, hs⟩
  · rw [hs, register_moved hr]
  · have hp : a.place ≠ (Address.ofRegister r).place := by
      intro hp
      rw [hp, Address.place_ofRegister] at ha
      exact h ha
    rw [hs, AddressSpace.register_eq_read, AddressSpace.read_store, if_neg hp,
      ← AddressSpace.register_eq_read, register_moved hr]

theorem isAllocated_step {a : Address} (h : m.space.isAllocated a = true) :
    m.step.machine.space.isAllocated a = true := by
  have hm : m.moved.isAllocated a = true := by
    rw [AddressSpace.isAllocated, memory_moved]
    exact h
  rcases m.space_step_cases with ⟨-, hs⟩ | ⟨b, w, -, hs⟩
  · rw [hs, hm]
  · rw [hs, AddressSpace.store, AddressSpace.isAllocated_update, hm, Bool.or_true]

/-- Only an instruction that is carried out can take room, and at most one cell. -/
theorem size_step_le (m : Machine) :
    m.step.machine.space.size ≤ m.space.size + if m.CarriesOut then 1 else 0 := by
  have hm : m.moved.size = m.space.size := by
    rw [AddressSpace.size, memory_moved, AddressSpace.size]
  rcases m.space_step_cases with ⟨hc, hs⟩ | ⟨a, w, ha, hs⟩
  · rw [hs, hm, if_neg hc]
    exact Nat.le_refl _
  · rw [hs, if_pos ha.1, ← hm]
    exact AddressSpace.size_store_le _ a w

theorem getElem?_memory_afterSteps_of_not (n : Nat)
    (h : ∀ k < n, ¬ (m.afterSteps k).WritesTo (.memory c)) :
    (m.afterSteps n).space.memory[c]? = m.space.memory[c]? := by
  induction n with
  | zero => rfl
  | succ n ih =>
      rw [afterSteps_succ_eq, getElem?_memory_step_of_not (h n (Nat.lt_succ_self n))]
      exact ih fun k hk => h k (Nat.lt_succ_of_lt hk)

theorem register_afterSteps_of_not (hr : r ≠ .px) (n : Nat)
    (h : ∀ k < n, ¬ (m.afterSteps k).WritesTo (.register r)) :
    (m.afterSteps n).space.register r = m.space.register r := by
  induction n with
  | zero => rfl
  | succ n ih =>
      rw [afterSteps_succ_eq, register_step_of_not hr (h n (Nat.lt_succ_self n))]
      exact ih fun k hk => h k (Nat.lt_succ_of_lt hk)

theorem isAllocated_afterSteps {a : Address} (h : m.space.isAllocated a = true) (n : Nat) :
    (m.afterSteps n).space.isAllocated a = true := by
  induction n with
  | zero => exact h
  | succ n ih =>
      rw [afterSteps_succ_eq]
      exact isAllocated_step ih

theorem size_afterSteps_le (m : Machine) (n : Nat) :
    (m.afterSteps n).space.size ≤
      m.space.size + Nat.count (fun k => (m.afterSteps k).CarriesOut) n := by
  induction n with
  | zero => exact Nat.le_refl _
  | succ n ih =>
      have hn := (m.afterSteps n).size_step_le
      rw [afterSteps_succ_eq, Nat.count_succ]
      omega

theorem framed (m : Machine) (n : Nat) : m.Framed n (m.afterSteps n).space where
  cell c h := by
    have hc := getElem?_memory_afterSteps_of_not n h
    rw [AddressSpace.read_cell_address, AddressSpace.read_cell_address,
      AddressSpace.isAllocated_cell_address, AddressSpace.isAllocated_cell_address, hc]
    exact ⟨rfl, rfl⟩
  register _ hr h := register_afterSteps_of_not hr n h
  kept _ h := isAllocated_afterSteps h n
  size_le := m.size_afterSteps_le n
  unwritten c h := by
    rw [AddressSpace.isAllocated_cell_address, Option.isSome_eq_false_iff,
      Option.isNone_iff_eq_none] at h
    rw [AddressSpace.read_cell_address, h]
    rfl

/-- After any number of steps, however they go, and after a run, however it ends, the space is as it
was except for `PX` and for the places that the instructions carried out in these steps have written
to. A cell that was allocated still is, and there are no more new cells than such instructions. -/
theorem framed_afterSteps (m : Machine) :
    (∀ n, m.Framed n (m.afterSteps n).space) ∧
      ∃ n, Course m n ∧ m.Framed (n + 1) m.run.machine.space := by
  refine ⟨m.framed, ?_⟩
  obtain ⟨n, hn⟩ := m.exists_course
  refine ⟨n, hn, ?_⟩
  rw [hn.run_eq.1]
  exact m.framed (n + 1)

end Machine

end KeyIndexMachine
