import KeyIndexMachine.Machine.Request
import KeyIndexMachine.Proofs.RunCourse
import Mathlib.Algebra.Group.Nat.Defs

/-!
# The leash is a budget

A machine starts with the leash of its configuration and with no steps behind it. Each instruction
that is taken, one that is skipped among them, moves a unit from the leash to the step count.
Nothing else moves either of them but a reload, which starts afresh. So the two always make up the
configured leash: no unit is spent that is not there, and the step count never outgrows the leash
that was configured.

Only a step that pays leaves a machine running. Hence a run is over after at most one step more than
the leash has units, whatever its program does, and the machine that it leaves behind is halted
until it is reloaded.
-/
namespace KeyIndexMachine.Machine

variable {ρ : Type} {m : Machine} {c : Config} {whole : Nat}

/-- Made from a space or from a program, and not yet used. -/
def MadeUnder (c : Config) (m : Machine) : Prop :=
  (∃ s, m = ofSpace s c) ∨ ∃ code, m = ofProgram code c

/-- What is left and what was taken make up the whole leash, which is the configured one. -/
structure Balanced (whole : Nat) (m : Machine) : Prop where
  config : m.config.leash = whole
  sum : m.leash + m.steps = whole

/-- The step does not touch the two counters, or it moves one unit that is there. -/
def PaysAtMostOne (m : Machine) : Prop :=
  (m.step.machine.leash = m.leash ∧ m.step.machine.steps = m.steps) ∨
    (0 < m.leash ∧ m.step.machine.leash = m.leash - 1 ∧ m.step.machine.steps = m.steps + 1)

/-- The budget of a machine, and what its next step makes of it. A step count of as many bits as
hold the whole leash does not overflow. -/
structure WithinBudget (whole : Nat) (m : Machine) : Prop extends Balanced whole m where
  payment : m.PaysAtMostOne
  noOverflow : ∀ bits, whole < 2 ^ bits → m.step.machine.steps < 2 ^ bits

theorem paysAtMostOne (m : Machine) : m.PaysAtMostOne := by
  unfold PaysAtMostOne
  cases m.stepCase with
  | stayed hs =>
      rw [step_of_halted hs]
      exact .inl ⟨rfl, rfl⟩
  | ended hs hw =>
      rw [step_of_ended hs hw]
      exact .inl ⟨rfl, rfl⟩
  | exhausted hs hw hl =>
      rw [step_of_exhausted hs hw hl]
      exact .inl ⟨rfl, rfl⟩
  | skipped hs hw hl ho =>
      rw [step_of_skipped hs hw hl ho]
      exact .inr ⟨Nat.pos_of_ne_zero hl, rfl, rfl⟩
  | done s hs hw hl ho =>
      rw [step_of_done hs hw hl ho]
      exact .inr ⟨Nat.pos_of_ne_zero hl, rfl, rfl⟩
  | refused kind hs hw hl ho =>
      rw [step_of_refused hs hw hl ho]
      exact .inr ⟨Nat.pos_of_ne_zero hl, rfl, rfl⟩

theorem Balanced.step (h : m.Balanced whole) : m.step.machine.Balanced whole where
  config := by rw [config_step, h.config]
  sum := by
    have hs := h.sum
    rcases m.paysAtMostOne with ⟨hl, hn⟩ | ⟨hp, hl, hn⟩
    · rw [hl, hn, hs]
    · omega

theorem Balanced.afterSteps (h : m.Balanced whole) (k : Nat) :
    (m.afterSteps k).Balanced whole := by
  induction k with
  | zero => exact h
  | succ k ih =>
      rw [afterSteps_succ_eq]
      exact ih.step

theorem Balanced.withinBudget (h : m.Balanced whole) : m.WithinBudget whole where
  toBalanced := h
  payment := m.paysAtMostOne
  noOverflow := by
    intro bits hb
    have hs := h.step.sum
    omega

theorem Balanced.run (h : m.Balanced whole) : m.run.machine.Balanced whole := by
  obtain ⟨n, hn⟩ := m.exists_course
  rw [hn.run_eq.1]
  exact h.afterSteps (n + 1)

theorem balanced_reload (h : m.config.leash = whole) (code : List Word) :
    (m.reload code).Balanced whole :=
  ⟨h, h⟩

theorem Balanced.perform (h : m.Balanced whole) (d : Command) :
    (m.perform d).machine.Balanced whole := by
  cases d with
  | step => exact h.step
  | run => exact h.run
  | reload code => exact balanced_reload h.config code
  | setTrace on => exact ⟨h.config, h.sum⟩
  | edit e => exact ⟨h.config, h.sum⟩

theorem Balanced.serve (h : m.Balanced whole) (r : Request ρ) :
    (m.serve r).machine.Balanced whole := by
  cases r with
  | command d => exact h.perform d
  | visit work => exact ⟨h.config, h.sum⟩

theorem Balanced.serveAll (h : m.Balanced whole) (history : List (Request ρ)) :
    (m.serveAll history).Balanced whole := by
  induction history generalizing m with
  | nil => exact h
  | cons r history ih => exact ih (h.serve r)

theorem MadeUnder.balanced (h : m.MadeUnder c) : m.Balanced c.leash := by
  rcases h with ⟨s, rfl⟩ | ⟨code, rfl⟩
  · exact ⟨rfl, rfl⟩
  · exact ⟨rfl, rfl⟩

theorem halted_step_of_ne_running (h : m.step.answer ≠ .value .running) :
    m.step.machine.state = .halted := by
  cases m.stepCase with
  | stayed hs => rw [step_of_halted hs, hs]
  | ended hs hw => rw [step_of_ended hs hw]
  | exhausted hs hw hl => rw [step_of_exhausted hs hw hl]; rfl
  | skipped hs hw hl ho =>
      rw [step_of_skipped hs hw hl ho] at h
      exact absurd rfl h
  | done s hs hw hl ho =>
      rw [step_of_done hs hw hl ho] at h
      exact absurd rfl h
  | refused kind hs hw hl ho => rw [step_of_refused hs hw hl ho]; rfl

theorem Course.halted {n : Nat} (hn : Course m n) : m.run.machine.state = .halted := by
  rw [hn.run_eq.1, afterSteps_succ_eq]
  exact halted_step_of_ne_running hn.last

theorem Course.le_leash {n : Nat} (hn : Course m n) : n ≤ m.leash := by
  have hp := (hn.pays n (Nat.le_refl n)).1
  omega

theorem halted_serve (h : m.state = .halted) {r : Request ρ}
    (hr : ∀ code, r ≠ .command (.reload code)) : (m.serve r).machine.state = .halted := by
  cases r with
  | visit work => exact h
  | command d =>
      cases d with
      | step =>
          change m.step.machine.state = .halted
          rw [step_of_halted h, h]
      | run =>
          change m.run.machine.state = .halted
          rw [run_of_state_halted h, h]
      | reload code => exact absurd rfl (hr code)
      | setTrace on => exact h
      | edit e => exact h

/-- Of all requests only a reload sets a halted machine going. -/
theorem running_serve_iff (h : m.state = .halted) (r : Request ρ) :
    (m.serve r).machine.state = .running ↔ ∃ code, r = .command (.reload code) := by
  constructor
  · intro hr
    refine Classical.byContradiction fun hne => ?_
    rw [halted_serve h fun code hc => hne ⟨code, hc⟩] at hr
    cases hr
  · intro hr
    obtain ⟨code, rfl⟩ := hr
    rfl

/-- Whatever a machine has been asked since it was made, its leash and its step count make up the
configured leash, and so they do in the middle of a run. The next run is over after at most one step
more than the leash has units and leaves the machine halted, and only a reload lets a halted machine
run again. -/
theorem withinBudget_serveAll (h : m.MadeUnder c) (history : List (Request ρ)) :
    (∀ k, ((m.serveAll history).afterSteps k).WithinBudget c.leash) ∧
    (∃ n, Course (m.serveAll history) n ∧ n + 1 ≤ (m.serveAll history).leash + 1 ∧
      (m.serveAll history).run.machine = (m.serveAll history).afterSteps (n + 1)) ∧
    (m.serveAll history).run.machine.state = .halted ∧
    ((m.serveAll history).state = .halted → ∀ r : Request ρ,
      ((m.serveAll history).serve r).machine.state = .running ↔
        ∃ code, r = .command (.reload code)) := by
  have hb := h.balanced.serveAll history
  obtain ⟨n, hn⟩ := (m.serveAll history).exists_course
  refine ⟨?_, ?_, hn.halted, running_serve_iff⟩
  · intro k
    exact (hb.afterSteps k).withinBudget
  · exact ⟨n, hn, Nat.succ_le_succ hn.le_leash, hn.run_eq.1⟩

/-- `mov PX, $0` runs until it is cut off, here with an abort. Then the machine is reloaded, takes a
step, and has a register changed from outside. -/
theorem withinBudget_serveAll_after_abort :
    let c : Config := { leash := 2, policy := .abort }
    let m := ofProgram [0x080080FF#64] c
    let history : List (Request Word) := [.command .run, .command (.reload [0x080080FF#64]),
      .command .step, .visit fun s => (s.setRegister .r1 7#64, s.register .px)]
    m.MadeUnder c ∧ (m.serveAll history).leash + (m.serveAll history).steps = 2 ∧
      (m.serveAll history).run.machine.state = .halted := by
  intro c m history
  have hm : m.MadeUnder c := .inr ⟨_, rfl⟩
  have hb := withinBudget_serveAll hm history
  exact ⟨hm, (hb.1 0).sum, hb.2.2.1⟩

end KeyIndexMachine.Machine
