import KeyIndexMachine.Machine.Run
import KeyIndexMachine.Proofs.InstructionEffect

/-!
# The cases of a step

A step of a machine ends in one of six ways, and `StepCase` names them by what was tested on the
way. For each there is one equation that gives the whole turn, so a statement about a step is a
case analysis without the step being opened again. The machines that appear are the one whose `PX`
has moved past the fetched word and the one that has paid for it as well.
-/
namespace KeyIndexMachine

namespace Fetch

def instruction (f : Fetch) : Instruction := Instruction.ofWord f.word

/-- What the fetched instruction does to the space that the fetch left behind. -/
def outcome (f : Fetch) : Outcome := f.instruction.execute f.space

end Fetch

namespace Machine

/-- The machine after its fetch, before anything is paid. -/
def advanced (m : Machine) : Machine := { m with space := m.space.fetch.space }

/-- The machine after its fetch, with one unit of leash spent. -/
def paid (m : Machine) : Machine :=
  { m with space := m.space.fetch.space, leash := m.leash - 1, steps := m.steps + 1 }

def fetched (m : Machine) : Event :=
  .fetched m.space.fetch.address.index m.space.fetch.word

/-- The fault that the next instruction gives rise to, if it gives rise to one of this kind. -/
def report (m : Machine) (kind : FaultKind) : Fault :=
  ⟨kind, m.space.fetch.word, m.space.fetch.address, m.space.fetch.space.registers⟩

theorem step_of_ended {m : Machine} (hs : m.state = .running)
    (hw : m.space.fetch.word = 0#64) :
    m.step = ⟨{ m.advanced with state := .halted },
      m.traced [.ended m.space.fetch.address.index], .value .halted⟩ := by
  simp [step, hs, hw, advanced]

theorem step_of_exhausted {m : Machine} (hs : m.state = .running)
    (hw : m.space.fetch.word ≠ 0#64) (hl : m.leash = 0) :
    m.step = m.advanced.stop .ranTooLong m.space.fetch [] := by
  simp [step, hs, hw, hl, advanced]

theorem step_of_skipped {m : Machine} (hs : m.state = .running)
    (hw : m.space.fetch.word ≠ 0#64) (hl : m.leash ≠ 0) (ho : m.space.fetch.outcome = .skipped) :
    m.step = ⟨m.paid,
      m.traced [m.fetched, .skipped m.space.fetch.instruction.condition,
        .settled m.space.fetch.space.registers], .value .running⟩ := by
  obtain ⟨leash, hn⟩ := Nat.exists_eq_succ_of_ne_zero hl
  unfold Fetch.outcome Fetch.instruction at ho
  simp [step, hs, hw, hn, ho, paid, fetched, Fetch.instruction]

theorem step_of_done {m : Machine} {s : AddressSpace} (hs : m.state = .running)
    (hw : m.space.fetch.word ≠ 0#64) (hl : m.leash ≠ 0) (ho : m.space.fetch.outcome = .done s) :
    m.step = ⟨{ m.paid with space := s },
      m.traced (m.fetched :: m.space.fetch.instruction.accesses m.space.fetch.space ++
        [.settled s.registers]), .value .running⟩ := by
  obtain ⟨leash, hn⟩ := Nat.exists_eq_succ_of_ne_zero hl
  unfold Fetch.outcome Fetch.instruction at ho
  simp [step, hs, hw, hn, ho, paid, fetched, Fetch.instruction]

theorem step_of_refused {m : Machine} {kind : FaultKind} (hs : m.state = .running)
    (hw : m.space.fetch.word ≠ 0#64) (hl : m.leash ≠ 0)
    (ho : m.space.fetch.outcome = .refused kind) :
    m.step = m.paid.stop kind m.space.fetch (m.traced [m.fetched]) := by
  obtain ⟨leash, hn⟩ := Nat.exists_eq_succ_of_ne_zero hl
  unfold Fetch.outcome Fetch.instruction at ho
  simp [step, hs, hw, hn, ho, paid, fetched]

/-- How a step can go. The cases follow the order in which a step tests: the state, the fetched
word, the leash, and only then the instruction. -/
inductive StepCase (m : Machine) : Prop
  | stayed (hs : m.state = .halted)
  | ended (hs : m.state = .running) (hw : m.space.fetch.word = 0#64)
  | exhausted (hs : m.state = .running) (hw : m.space.fetch.word ≠ 0#64) (hl : m.leash = 0)
  | skipped (hs : m.state = .running) (hw : m.space.fetch.word ≠ 0#64) (hl : m.leash ≠ 0)
      (ho : m.space.fetch.outcome = .skipped)
  | done (s : AddressSpace) (hs : m.state = .running) (hw : m.space.fetch.word ≠ 0#64)
      (hl : m.leash ≠ 0) (ho : m.space.fetch.outcome = .done s)
  | refused (kind : FaultKind) (hs : m.state = .running) (hw : m.space.fetch.word ≠ 0#64)
      (hl : m.leash ≠ 0) (ho : m.space.fetch.outcome = .refused kind)

theorem stepCase (m : Machine) : StepCase m := by
  cases hs : m.state with
  | halted => exact .stayed hs
  | running =>
      by_cases hw : m.space.fetch.word = 0#64
      · exact .ended hs hw
      · by_cases hl : m.leash = 0
        · exact .exhausted hs hw hl
        · cases ho : m.space.fetch.outcome with
          | skipped => exact .skipped hs hw hl ho
          | done s => exact .done s hs hw hl ho
          | refused kind => exact .refused kind hs hw hl ho

theorem answer_stop_ne_value {α : Type} (m : Machine) (kind : FaultKind) (f : Fetch)
    (past : List Event) (a : α) : (m.stop kind f past).answer ≠ .value a := by
  cases hp : m.config.policy <;> simp [stop, hp]

/-- A step that leaves the machine running has found it running, and has taken one instruction. -/
theorem pays_of_running {m : Machine} (h : m.step.answer = .value .running) :
    m.state = .running ∧ m.step.machine.state = .running ∧
      m.step.machine.leash + 1 = m.leash ∧ m.step.machine.steps = m.steps + 1 := by
  cases m.stepCase with
  | stayed hs => simp [step_of_halted hs] at h
  | ended hs hw => simp [step_of_ended hs hw] at h
  | exhausted hs hw hl =>
      rw [step_of_exhausted hs hw hl] at h
      exact absurd h (answer_stop_ne_value _ _ _ _ _)
  | skipped hs hw hl ho =>
      rw [step_of_skipped hs hw hl ho]
      exact ⟨hs, hs, Nat.sub_add_cancel (Nat.pos_of_ne_zero hl), rfl⟩
  | done s hs hw hl ho =>
      rw [step_of_done hs hw hl ho]
      exact ⟨hs, hs, Nat.sub_add_cancel (Nat.pos_of_ne_zero hl), rfl⟩
  | refused kind hs hw hl ho =>
      rw [step_of_refused hs hw hl ho] at h
      exact absurd h (answer_stop_ne_value _ _ _ _ _)

@[simp] theorem config_step (m : Machine) : m.step.machine.config = m.config := by
  cases m.stepCase with
  | stayed hs => rw [step_of_halted hs]
  | ended hs hw => rw [step_of_ended hs hw]; rfl
  | exhausted hs hw hl => rw [step_of_exhausted hs hw hl]; rfl
  | skipped hs hw hl ho => rw [step_of_skipped hs hw hl ho]; rfl
  | done s hs hw hl ho => rw [step_of_done hs hw hl ho]; rfl
  | refused kind hs hw hl ho => rw [step_of_refused hs hw hl ho]; rfl

@[simp] theorem config_afterSteps (m : Machine) (n : Nat) :
    (m.afterSteps n).config = m.config := by
  induction n generalizing m with
  | zero => rfl
  | succ n ih => rw [afterSteps_succ, ih, config_step]

end Machine

end KeyIndexMachine
