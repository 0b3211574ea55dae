import KeyIndexMachine.Proofs.RunCourse

/-!
# The leash as a threshold

Two machines that differ only in their leash take the same steps until the shorter leash is used
up. So there are two kinds of runs. A run that ends by itself is the same under every longer leash,
and leaves the extra leash over. A run that is cut off has taken one instruction for every unit of
its leash, and is a beginning of the run under the longer leash: only `PX` has moved once more,
past the word that could no longer be paid for.
-/
namespace KeyIndexMachine

/-- The answer of an operation that was cut off by its leash. -/
def Answer.RanTooLong {α : Type} (a : Answer α) : Prop :=
  ∃ f : Fault, a = .fault f ∧ f.kind = .ranTooLong

namespace Machine

/-- Equal but for the leash: the one that is left, and the one that the configuration gives. -/
structure SameButLeash (m₁ m₂ : Machine) : Prop where
  space : m₁.space = m₂.space
  state : m₁.state = m₂.state
  steps : m₁.steps = m₂.steps
  trace : m₁.config.trace = m₂.config.trace
  policy : m₁.config.policy = m₂.config.policy
  programKey : m₁.config.programKey = m₂.config.programKey

/-- The next step finds a word to take and no leash to pay for it. -/
def Exhausted (m : Machine) : Prop :=
  m.state = .running ∧ m.space.fetch.word ≠ 0#64 ∧ m.leash = 0

theorem not_exhausted_of_running {m : Machine} (h : m.step.answer = .value .running) :
    ¬ m.Exhausted := by
  rintro ⟨hs, hw, hl⟩
  rw [step_of_exhausted hs hw hl] at h
  exact answer_stop_ne_value _ _ _ _ _ h

theorem ending_stop_of_report {m : Machine} (hp : m.config.policy = .report) (kind : FaultKind)
    (f : Fetch) (past : List Event) :
    (m.stop kind f past).ending = .fault ⟨kind, f.word, f.address, m.space.registers⟩ := by
  simp [Turn.ending, stop, hp, Answer.map]

theorem ranTooLong_ending_iff {m : Machine} (hp : m.config.policy = .report) :
    m.step.ending.RanTooLong ↔ m.Exhausted := by
  constructor
  · rintro ⟨f, hf, hk⟩
    cases m.stepCase with
    | stayed hs => simp [step_of_halted hs, Turn.ending, Answer.map] at hf
    | ended hs hw => simp [step_of_ended hs hw, Turn.ending, Answer.map] at hf
    | exhausted hs hw hl => exact ⟨hs, hw, hl⟩
    | skipped hs hw hl ho => simp [step_of_skipped hs hw hl ho, Turn.ending, Answer.map] at hf
    | done s hs hw hl ho => simp [step_of_done hs hw hl ho, Turn.ending, Answer.map] at hf
    | refused kind hs hw hl ho =>
        rw [step_of_refused hs hw hl ho, ending_stop_of_report (m := m.paid) hp,
          Answer.fault.injEq] at hf
        subst hf
        exact absurd hk (Instruction.ne_ranTooLong_of_refused ho)
  · rintro ⟨hs, hw, hl⟩
    refine ⟨m.report .ranTooLong, ?_, rfl⟩
    rw [step_of_exhausted hs hw hl]
    exact ending_stop_of_report (m := m.advanced) hp _ _ _

/-- Until the shorter leash is used up, the two machines take the same step. -/
theorem SameButLeash.step {m₁ m₂ : Machine} {d : Nat} (h : SameButLeash m₁ m₂)
    (hd : m₂.leash = m₁.leash + d) (he : ¬ m₁.Exhausted) :
    m₂.step.answer = m₁.step.answer ∧ SameButLeash m₁.step.machine m₂.step.machine ∧
      m₂.step.machine.leash = m₁.step.machine.leash + d := by
  have hst := h.state
  have hsp := h.space
  cases m₁.stepCase with
  | stayed hs =>
      rw [step_of_halted hs, step_of_halted (hst ▸ hs)]
      exact ⟨rfl, h, hd⟩
  | ended hs hw =>
      rw [step_of_ended hs hw, step_of_ended (hst ▸ hs) (hsp ▸ hw)]
      exact ⟨rfl, ⟨by simp [advanced, hsp], rfl, h.steps, h.trace, h.policy, h.programKey⟩, hd⟩
  | exhausted hs hw hl => exact absurd ⟨hs, hw, hl⟩ he
  | skipped hs hw hl ho =>
      rw [step_of_skipped hs hw hl ho,
        step_of_skipped (hst ▸ hs) (hsp ▸ hw) (by omega) (hsp ▸ ho)]
      exact ⟨rfl, ⟨by simp [paid, hsp], hst, by simp [paid, h.steps], h.trace, h.policy,
        h.programKey⟩, by simp only [paid]; omega⟩
  | done s hs hw hl ho =>
      rw [step_of_done hs hw hl ho, step_of_done (hst ▸ hs) (hsp ▸ hw) (by omega) (hsp ▸ ho)]
      exact ⟨rfl, ⟨rfl, hst, by simp [paid, h.steps], h.trace, h.policy, h.programKey⟩,
        by simp only [paid]; omega⟩
  | refused kind hs hw hl ho =>
      rw [step_of_refused hs hw hl ho,
        step_of_refused (hst ▸ hs) (hsp ▸ hw) (by omega) (hsp ▸ ho)]
      refine ⟨?_, ⟨by simp [stop, paid, hsp], rfl, by simp [stop, paid, h.steps], h.trace,
        h.policy, h.programKey⟩, by simp only [stop, paid]; omega⟩
      simp only [stop, paid, hsp, h.policy]

/-- The two courses run side by side at least as long as the shorter one stays running. -/
theorem SameButLeash.afterSteps {m₁ m₂ : Machine} {d n : Nat} (h : SameButLeash m₁ m₂)
    (hd : m₂.leash = m₁.leash + d) (c : Course m₁ n) (k : Nat) (hk : k ≤ n) :
    SameButLeash (m₁.afterSteps k) (m₂.afterSteps k) ∧
      (m₂.afterSteps k).leash = (m₁.afterSteps k).leash + d := by
  induction k with
  | zero => exact ⟨h, hd⟩
  | succ k ih =>
      obtain ⟨hk₁, hk₂⟩ := ih (by omega)
      rw [afterSteps_succ_eq, afterSteps_succ_eq]
      exact (hk₁.step hk₂ (not_exhausted_of_running (c.running k (by omega)))).2

/-- Every step of the shorter course is answered alike under the longer leash. -/
theorem SameButLeash.running {m₁ m₂ : Machine} {d n : Nat} (h : SameButLeash m₁ m₂)
    (hd : m₂.leash = m₁.leash + d) (c : Course m₁ n) (k : Nat) (hk : k < n) :
    (m₂.afterSteps k).step.answer = .value .running := by
  obtain ⟨hk₁, hk₂⟩ := h.afterSteps hd c k (by omega)
  rw [(hk₁.step hk₂ (not_exhausted_of_running (c.running k hk))).1]
  exact c.running k hk

/-- A run that is not cut off is the same under every longer leash and leaves the rest of that
leash over. A run that is cut off has taken one instruction for every unit of leash; the longer
leash lets the same steps pass, and the two machines then differ in one move of `PX`. -/
theorem run_leash_threshold {m₁ m₂ : Machine} (h : SameButLeash m₁ m₂)
    (hp : m₁.config.policy = .report) (hl : m₁.leash ≤ m₂.leash) :
    (¬ m₁.run.answer.RanTooLong →
      m₂.run.answer = m₁.run.answer ∧ SameButLeash m₁.run.machine m₂.run.machine ∧
        m₂.run.machine.leash = m₁.run.machine.leash + (m₂.leash - m₁.leash)) ∧
    (m₁.run.answer.RanTooLong →
      Course m₁ m₁.leash ∧ m₁.run.machine.steps = m₁.steps + m₁.leash ∧
        m₁.run.machine.leash = 0 ∧
        (∀ k < m₁.leash, (m₂.afterSteps k).step.answer = .value .running) ∧
        m₁.run.machine.space = (m₂.afterSteps m₁.leash).space.setRegister .px
          ((m₂.afterSteps m₁.leash).space.register .px + 1)) := by
  have hd : m₂.leash = m₁.leash + (m₂.leash - m₁.leash) := by omega
  obtain ⟨n, c⟩ := m₁.exists_course
  obtain ⟨hn₁, hn₂⟩ := h.afterSteps hd c n (Nat.le_refl n)
  have hpn : (m₁.afterSteps n).config.policy = .report := by rw [config_afterSteps, hp]
  rw [c.run_eq.2, ranTooLong_ending_iff hpn, c.run_eq.1, afterSteps_succ_eq]
  refine ⟨?_, ?_⟩
  · intro he
    obtain ⟨ha, hm, hg⟩ := hn₁.step hn₂ he
    have c₂ : Course m₂ n := ⟨h.running hd c, by rw [ha]; exact c.last⟩
    rw [c₂.run_eq.1, c₂.run_eq.2, afterSteps_succ_eq]
    refine ⟨?_, hm, hg⟩
    rw [Turn.ending, Turn.ending, ha, hm.space]
  · rintro ⟨hs, hw, hz⟩
    obtain ⟨hpl, hps⟩ := c.pays n (Nat.le_refl n)
    have hn : n = m₁.leash := by omega
    subst hn
    rw [step_of_exhausted hs hw hz]
    refine ⟨c, hps, hz, h.running hd c, ?_⟩
    rw [← hn₁.space]
    rfl

/-- A machine that runs its own registers from `r1` on, with this word in `r1`. -/
def inRegisters (w : Word) (leash : Nat) : Machine :=
  ofSpace ((AddressSpace.empty.setRegister .r1 w).setRegister .px 1#64) { leash := leash }

theorem sameButLeash_inRegisters (w : Word) (k n : Nat) :
    SameButLeash (inRegisters w k) (inRegisters w n) := ⟨rfl, rfl, rfl, rfl, rfl, rfl⟩

/-- `mov PX, $1` runs again and again until it is cut off; `mov r2, $1` runs into the word 1, which
is no instruction, under every leash. -/
theorem run_leash_threshold_inRegisters :
    (SameButLeash (inRegisters 0x080081FF#64 2) (inRegisters 0x080081FF#64 3) ∧
      (inRegisters 0x080081FF#64 2).config.policy = .report ∧
      (inRegisters 0x080081FF#64 2).run.answer.RanTooLong ∧
      (inRegisters 0x080081FF#64 2).run.machine.steps = 2) ∧
    (SameButLeash (inRegisters 0x020081FF#64 2) (inRegisters 0x020081FF#64 5) ∧
      (inRegisters 0x020081FF#64 2).config.policy = .report ∧
      ¬ (inRegisters 0x020081FF#64 2).run.answer.RanTooLong ∧
      (inRegisters 0x020081FF#64 5).run.answer = (inRegisters 0x020081FF#64 2).run.answer) := by
  have hloop : (inRegisters 0x080081FF#64 2).run.answer.RanTooLong := by
    have c : Course (inRegisters 0x080081FF#64 2) 2 := by
      refine ⟨?_, by simp; decide⟩
      intro k hk
      rcases k with _ | _ | k
      · rfl
      · rfl
      · omega
    rw [c.run_eq.2]
    exact ⟨_, rfl, rfl⟩
  have hmove : ¬ (inRegisters 0x020081FF#64 2).run.answer.RanTooLong := by
    have c : Course (inRegisters 0x020081FF#64 2) 1 := by
      refine ⟨?_, by decide⟩
      intro k hk
      rcases k with _ | k
      · rfl
      · omega
    rw [c.run_eq.2]
    rintro ⟨f, hf, hk⟩
    cases hf
    cases hk
  have hl := (run_leash_threshold (sameButLeash_inRegisters _ 2 3) rfl (by decide)).2 hloop
  have hm := (run_leash_threshold (sameButLeash_inRegisters _ 2 5) rfl (by decide)).1 hmove
  exact ⟨⟨sameButLeash_inRegisters _ 2 3, rfl, hloop, hl.2.1⟩,
    sameButLeash_inRegisters _ 2 5, rfl, hmove, hm.1⟩

end Machine

end KeyIndexMachine
