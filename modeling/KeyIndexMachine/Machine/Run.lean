import KeyIndexMachine.Machine.Step

/-!
# Running a machine

A run repeats steps until the machine halts, and its result is what register `r1` holds then. Each
step that leaves the machine running shortens the leash, so a run ends whatever its program does.
`run_of_running` and its companions unfold a run by one step. `afterSteps` is the machine after so
many steps, with what they reported and answered left out.
-/
namespace KeyIndexMachine

/-- The same turn with an earlier report in front of its own. -/
def Turn.withPast {α : Type} (past : List Event) (t : Turn α) : Turn α :=
  { t with log := past ++ t.log }

namespace Machine

/-- A run whose report so far is given. -/
def runAfter (m : Machine) (past : Array Event) : Turn Word :=
  let t := m.step
  let log := past ++ t.log
  match _h : t.answer with
  | .value .running => t.machine.runAfter log
  | .value .halted => ⟨t.machine, log.toList, .value (t.machine.space.register .r1)⟩
  | .fault f => ⟨t.machine, log.toList, .fault f⟩
  | .abort message => ⟨t.machine, log.toList, .abort message⟩
termination_by m.leash
decreasing_by
  have hl := leash_step_of_running _h
  omega

def run (m : Machine) : Turn Word := m.runAfter #[]

def afterSteps (m : Machine) : Nat → Machine
  | 0 => m
  | n + 1 => m.step.machine.afterSteps n

@[simp] theorem afterSteps_zero (m : Machine) : m.afterSteps 0 = m := rfl

theorem afterSteps_succ (m : Machine) (n : Nat) :
    m.afterSteps (n + 1) = m.step.machine.afterSteps n := rfl

theorem afterSteps_add (m : Machine) (n k : Nat) :
    m.afterSteps (n + k) = (m.afterSteps n).afterSteps k := by
  induction n generalizing m with
  | zero => simp
  | succ n ih => rw [Nat.succ_add, afterSteps_succ, afterSteps_succ, ih]

theorem afterSteps_of_halted {m : Machine} (h : m.state = .halted) (n : Nat) :
    m.afterSteps n = m := by
  induction n with
  | zero => rfl
  | succ n ih => rw [afterSteps_succ, step_of_halted h, ih]

theorem runAfter_of_running {m : Machine} (h : m.step.answer = .value .running)
    (past : Array Event) :
    m.runAfter past = m.step.machine.runAfter (past ++ m.step.log) := by
  rw [runAfter]
  split <;> simp_all

theorem runAfter_of_halted {m : Machine} (h : m.step.answer = .value .halted)
    (past : Array Event) :
    m.runAfter past =
      ⟨m.step.machine, past.toList ++ m.step.log, .value (m.step.machine.space.register .r1)⟩ := by
  rw [runAfter]
  split <;> simp_all

theorem runAfter_of_fault {m : Machine} {f : Fault} (h : m.step.answer = .fault f)
    (past : Array Event) :
    m.runAfter past = ⟨m.step.machine, past.toList ++ m.step.log, .fault f⟩ := by
  rw [runAfter]
  split <;> simp_all

theorem runAfter_of_abort {m : Machine} {message : String} (h : m.step.answer = .abort message)
    (past : Array Event) :
    m.runAfter past = ⟨m.step.machine, past.toList ++ m.step.log, .abort message⟩ := by
  rw [runAfter]
  split <;> simp_all

/-- An earlier report only goes in front. -/
theorem runAfter_eq (m : Machine) (past : Array Event) :
    m.runAfter past = m.run.withPast past.toList := by
  suffices h : ∀ n (m : Machine), m.leash = n → ∀ past : Array Event,
      m.runAfter past = m.run.withPast past.toList from h _ m rfl past
  intro n
  induction n using Nat.strongRecOn with
  | _ n ih =>
    intro m hm past
    unfold run
    cases h : m.step.answer with
    | value st =>
      cases st with
      | running =>
        have hl := leash_step_of_running h
        have hlt : m.step.machine.leash < n := by omega
        rw [runAfter_of_running h, runAfter_of_running h, ih _ hlt _ rfl, ih _ hlt _ rfl]
        simp [Turn.withPast]
      | halted => simp [runAfter_of_halted h, Turn.withPast]
    | fault f => simp [runAfter_of_fault h, Turn.withPast]
    | abort message => simp [runAfter_of_abort h, Turn.withPast]

theorem run_of_running {m : Machine} (h : m.step.answer = .value .running) :
    m.run = m.step.machine.run.withPast m.step.log := by
  rw [run, runAfter_of_running h, runAfter_eq]
  simp

theorem run_of_halted {m : Machine} (h : m.step.answer = .value .halted) :
    m.run = ⟨m.step.machine, m.step.log, .value (m.step.machine.space.register .r1)⟩ := by
  simp [run, runAfter_of_halted h]

theorem run_of_fault {m : Machine} {f : Fault} (h : m.step.answer = .fault f) :
    m.run = ⟨m.step.machine, m.step.log, .fault f⟩ := by
  simp [run, runAfter_of_fault h]

theorem run_of_abort {m : Machine} {message : String} (h : m.step.answer = .abort message) :
    m.run = ⟨m.step.machine, m.step.log, .abort message⟩ := by
  simp [run, runAfter_of_abort h]

end Machine

end KeyIndexMachine
