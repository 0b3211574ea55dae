import KeyIndexMachine.Proofs.InstructionEffect
import KeyIndexMachine.Proofs.RunCourse
import KeyIndexMachine.Proofs.WriteLedger

/-!
# The record of what a machine writes

A step stores one word if it carries an instruction out. Besides that it moves `PX`, and nothing
else. What so many steps store is a ledger, and this ledger accounts for the memory: a cell holds
the latest word that the ledger has for it, and if there is none the cell is as it was before the
first step, allocated or not.
-/
namespace KeyIndexMachine.Machine

variable {m : Machine}

/-- Where the next step stores a word, and which, if it carries an instruction out. -/
def stored? (m : Machine) : Option (Address × Word) :=
  if m.state = .running ∧ m.space.fetch.word ≠ 0#64 ∧ m.leash ≠ 0 then
    m.space.fetch.instruction.delivery? m.space.fetch.space
  else none

/-- What so many steps store, the latest first. -/
def writes (m : Machine) : Nat → Ledger
  | 0 => []
  | n + 1 => (m.afterSteps n).stored?.toList ++ m.writes n

/-- The space once the next step has moved `PX`, which a halted machine does not do. -/
def moved (m : Machine) : AddressSpace :=
  match m.state with
  | .halted => m.space
  | .running => m.space.fetch.space

theorem memory_moved (m : Machine) : m.moved.memory = m.space.memory := by
  unfold moved
  split <;> rfl

theorem moved_of_running (hs : m.state = .running) : m.moved = m.space.fetch.space := by
  rw [moved, hs]

theorem stored?_of_ne_done (h : ∀ s, m.space.fetch.outcome ≠ .done s) : m.stored? = none := by
  rw [stored?, Instruction.delivery?_eq_none h, ite_self]

theorem stored?_of_done {s : AddressSpace} (hs : m.state = .running)
    (hw : m.space.fetch.word ≠ 0#64) (hl : m.leash ≠ 0) (ho : m.space.fetch.outcome = .done s) :
    ∃ a w, m.stored? = some (a, w) ∧ m.space.fetch.space.store a w = s := by
  rw [stored?, if_pos ⟨hs, hw, hl⟩]
  exact Instruction.execute_eq_done_iff.mp ho

theorem done_of_stored? {a : Address} {w : Word} (h : m.stored? = some (a, w)) :
    m.state = .running ∧ m.space.fetch.word ≠ 0#64 ∧ m.leash ≠ 0 ∧
      m.space.fetch.outcome = .done (m.space.fetch.space.store a w) := by
  unfold stored? at h
  split at h
  · rename_i hg
    exact ⟨hg.1, hg.2.1, hg.2.2, Instruction.execute_eq_done_iff.mpr ⟨a, w, h, rfl⟩⟩
  · cases h

/-- A step changes the space by a store or not at all, apart from moving `PX`. -/
theorem space_step (m : Machine) :
    m.step.machine.space = m.stored?.elim m.moved fun d => m.moved.store d.1 d.2 := by
  cases m.stepCase with
  | stayed hs => simp [step_of_halted hs, stored?, moved, hs]
  | ended hs hw =>
      rw [step_of_ended hs hw, moved_of_running hs, stored?, if_neg (by simp [hw])]
      rfl
  | exhausted hs hw hl =>
      rw [step_of_exhausted hs hw hl, moved_of_running hs, stored?, if_neg (by simp [hl])]
      rfl
  | skipped hs hw hl ho =>
      rw [step_of_skipped hs hw hl ho, moved_of_running hs, stored?_of_ne_done (by simp [ho])]
      rfl
  | done s hs hw hl ho =>
      obtain ⟨a, w, hd, rfl⟩ := stored?_of_done hs hw hl ho
      rw [step_of_done hs hw hl ho, moved_of_running hs, hd]
      rfl
  | refused kind hs hw hl ho =>
      rw [step_of_refused hs hw hl ho, moved_of_running hs, stored?_of_ne_done (by simp [ho])]
      rfl

theorem getElem?_memory_step (m : Machine) (c : Cell) :
    m.step.machine.space.memory[c]? =
      (m.stored?.toList.lookup c.address).or m.space.memory[c]? := by
  rw [space_step]
  cases m.stored? with
  | none => simp [memory_moved]
  | some d =>
      obtain ⟨a, w⟩ := d
      rw [Option.elim_some, AddressSpace.getElem?_memory_store, memory_moved, Option.toList_some,
        List.lookup_cons]
      by_cases h : a = c.address
      · simp [h]
      · have hb : (c.address == a) = false := beq_eq_false_iff_ne.mpr (Ne.symm h)
        simp [h, hb]

/-- A cell holds what was stored there last, or else it is as it was. -/
theorem getElem?_memory_afterSteps (m : Machine) (n : Nat) (c : Cell) :
    (m.afterSteps n).space.memory[c]? =
      ((m.writes n).lookup c.address).or m.space.memory[c]? := by
  induction n with
  | zero => rfl
  | succ n ih =>
      rw [afterSteps_succ_eq, getElem?_memory_step, ih, writes, List.lookup_append, Option.or_assoc]

end KeyIndexMachine.Machine
