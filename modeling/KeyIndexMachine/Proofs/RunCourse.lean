import KeyIndexMachine.Proofs.StepCases

/-!
# The course of a run

A run is a number of steps that leave the machine running and one more step that does not. The
number is unique, each of those steps takes one instruction, and the last step decides the answer.
So what a run does is read off `afterSteps`, and a statement about runs needs an induction over
steps only.
-/
namespace KeyIndexMachine

/-- A last step as the end of a run: the result is what `r1` holds. -/
def Turn.ending (t : Turn State) : Answer Word :=
  t.answer.map fun _ => t.machine.space.register .r1

namespace Machine

/-- The first `n` steps leave the machine running and the next one does not. -/
structure Course (m : Machine) (n : Nat) : Prop where
  running : ∀ k < n, (m.afterSteps k).step.answer = .value .running
  last : (m.afterSteps n).step.answer ≠ .value .running

theorem Course.cons {m : Machine} {n : Nat} (h : m.step.answer = .value .running)
    (c : Course m.step.machine n) : Course m (n + 1) := by
  refine ⟨?_, c.last⟩
  intro k hk
  cases k with
  | zero => exact h
  | succ k => exact c.running k (by omega)

theorem Course.tail {m : Machine} {n : Nat} (c : Course m (n + 1)) : Course m.step.machine n :=
  ⟨fun k hk => c.running (k + 1) (by omega), c.last⟩

/-- The leash bounds the course, so there is one. -/
theorem exists_course (m : Machine) : ∃ n, Course m n := by
  induction hl : m.leash using Nat.strongRecOn generalizing m with
  | _ leash ih =>
      by_cases h : m.step.answer = .value .running
      · have hp := (pays_of_running h).2.2.1
        obtain ⟨n, c⟩ := ih m.step.machine.leash (by omega) m.step.machine rfl
        exact ⟨n + 1, c.cons h⟩
      · exact ⟨0, ⟨fun k hk => absurd hk (Nat.not_lt_zero k), h⟩⟩

theorem afterSteps_succ_eq (m : Machine) (n : Nat) :
    m.afterSteps (n + 1) = (m.afterSteps n).step.machine := by
  rw [afterSteps_add]
  rfl

/-- A run that ends with its first step. -/
theorem run_of_ne_running {m : Machine} (h : m.step.answer ≠ .value .running) :
    m.run = ⟨m.step.machine, m.step.log, m.step.ending⟩ := by
  cases ha : m.step.answer with
  | value s =>
      cases s with
      | running => exact absurd ha h
      | halted =>
          rw [run_of_halted ha, Turn.ending, ha]
          rfl
  | fault f =>
      rw [run_of_fault ha, Turn.ending, ha]
      rfl
  | abort message =>
      rw [run_of_abort ha, Turn.ending, ha]
      rfl

/-- A halted machine runs no further. -/
theorem run_of_state_halted {m : Machine} (h : m.state = .halted) :
    m.run = ⟨m, [], .value (m.space.register .r1)⟩ := by
  have hs := step_of_halted h
  rw [run_of_halted (m := m) (by rw [hs]), hs]

theorem Course.run_eq {m : Machine} {n : Nat} (c : Course m n) :
    m.run.machine = m.afterSteps (n + 1) ∧ m.run.answer = (m.afterSteps n).step.ending := by
  induction n generalizing m with
  | zero =>
      have h : m.step.answer ≠ .value .running := c.last
      rw [run_of_ne_running h]
      exact ⟨rfl, rfl⟩
  | succ n ih =>
      have h : m.step.answer = .value .running := c.running 0 (by omega)
      rw [run_of_running h]
      exact ih c.tail

@[simp] theorem config_run (m : Machine) : m.run.machine.config = m.config := by
  obtain ⟨n, hn⟩ := m.exists_course
  rw [hn.run_eq.1, config_afterSteps]

/-- A run reports what its steps report. -/
theorem Course.log_eq {m : Machine} {n : Nat} (c : Course m n) :
    m.run.log = (List.range (n + 1)).flatMap fun k => (m.afterSteps k).step.log := by
  induction n generalizing m with
  | zero =>
      have h : m.step.answer ≠ .value .running := c.last
      rw [run_of_ne_running h]
      simp
  | succ n ih =>
      have h : m.step.answer = .value .running := c.running 0 (by omega)
      rw [run_of_running h, Turn.withPast, ih c.tail, List.range_succ_eq_map (n := n + 1),
        List.flatMap_cons, List.flatMap_map]
      rfl

/-- One instruction a step, and the machine stays running. -/
theorem Course.pays {m : Machine} {n : Nat} (c : Course m n) (k : Nat) (hk : k ≤ n) :
    (m.afterSteps k).leash + k = m.leash ∧ (m.afterSteps k).steps = m.steps + k := by
  induction k with
  | zero => exact ⟨rfl, rfl⟩
  | succ k ih =>
      obtain ⟨hl, hs⟩ := ih (by omega)
      obtain ⟨-, -, hp, hq⟩ := pays_of_running (c.running k (by omega))
      rw [afterSteps_succ_eq]
      omega

end Machine

end KeyIndexMachine
