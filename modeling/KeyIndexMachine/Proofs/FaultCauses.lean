import KeyIndexMachine.Proofs.ReportingIndependence

/-!
# What faults arise from

A machine only faults for want of leash or because it refuses the instruction that it has fetched.
This is said of the verdict behind the answer and the report of a command, so it holds of returned
faults, of aborts and of reported faults alike. Nothing but a step fetches instructions, and a run
hands on the verdict of its last step.
-/
namespace KeyIndexMachine

/-- The leash has run out, or the word denotes an instruction that is refused in some space. -/
def Fault.HasCause (f : Fault) : Prop :=
  f.kind = .ranTooLong ∨ ∃ s, (Instruction.ofWord f.word).execute s = .refused f.kind

/-- The turn tells a result, or a fault that has a cause. -/
structure Turn.TellsWithCause {α : Type} (t : Turn α) (c : Config) (v : Except Fault α) : Prop where
  tells : t.Tells c v
  cause : ∀ f, v = .error f → f.HasCause

namespace Turn

variable {α β : Type} {t : Turn α} {c : Config} {v : Except Fault α}

/-- The report of a turn names the fault of its verdict and no other. -/
theorem Tells.faulted_mem_log_iff (h : t.Tells c v) (f : Fault) :
    .faulted f ∈ t.log ↔ v = .error f := by
  have hf : .faulted f ∈ t.log ↔ .faulted f ∈ t.log.filter (fun e => !e.isTrace) := by
    simp [Event.isTrace]
  rw [hf, h.faults]
  cases v with
  | ok a => simp [faultEvents]
  | error g => simp [faultEvents, eq_comm]

theorem TellsWithCause.map (h : t.TellsWithCause c v) (g : α → β) :
    (t.map g).TellsWithCause c (v.map g) := by
  refine ⟨h.tells.map g, ?_⟩
  intro f hf
  cases v with
  | ok a => cases hf
  | error e =>
      cases hf
      exact h.cause _ rfl

theorem tellsWithCause_ok {a : α} (h : t.Tells c (.ok a)) : t.TellsWithCause c (.ok a) where
  tells := h
  cause := by
    intro f hf
    cases hf

theorem tellsWithCause_error {f : Fault} (h : t.Tells c (.error f)) (hf : f.HasCause) :
    t.TellsWithCause c (.error f) where
  tells := h
  cause := by
    intro g hg
    cases hg
    exact hf

end Turn

namespace Machine

theorem step_tellsWithCause (m : Machine) : ∃ v, m.step.TellsWithCause m.config v := by
  cases m.stepCase with
  | stayed hs =>
      rw [step_of_halted hs]
      exact ⟨.ok .halted, Turn.tellsWithCause_ok ⟨rfl, rfl, fun _ => rfl⟩⟩
  | ended hs hw =>
      rw [step_of_ended hs hw]
      exact ⟨.ok .halted, Turn.tellsWithCause_ok (Turn.tells_value (by simp [Event.isTrace]) _)⟩
  | exhausted hs hw hl =>
      rw [step_of_exhausted hs hw hl]
      exact ⟨_, Turn.tellsWithCause_error m.tells_exhausted (.inl rfl)⟩
  | skipped hs hw hl ho =>
      rw [step_of_skipped hs hw hl ho]
      exact ⟨.ok .running,
        Turn.tellsWithCause_ok (Turn.tells_value (by simp [fetched, Event.isTrace]) _)⟩
  | done s hs hw hl ho =>
      rw [step_of_done hs hw hl ho]
      exact ⟨.ok .running, Turn.tellsWithCause_ok (m.tells_done s)⟩
  | refused kind hs hw hl ho =>
      rw [step_of_refused hs hw hl ho]
      exact ⟨_, Turn.tellsWithCause_error (m.tells_refused kind) (.inr ⟨_, ho⟩)⟩

theorem run_tellsWithCause (m : Machine) : ∃ v, m.run.TellsWithCause m.config v := by
  induction hl : m.leash using Nat.strongRecOn generalizing m with
  | _ leash ih =>
      obtain ⟨v, hv⟩ := m.step_tellsWithCause
      by_cases hr : m.step.answer = .value .running
      · have hp := (pays_of_running hr).2.2.1
        obtain ⟨w, hw⟩ := ih m.step.machine.leash (by omega) m.step.machine rfl
        have hok : v = .ok .running :=
          FaultPolicy.answer_eq_value_iff.mp (hv.tells.answer.symm.trans hr)
        subst hok
        rw [config_step] at hw
        rw [run_of_running hr]
        exact ⟨w, hw.tells.withPast hv.tells, hw.cause⟩
      · rw [run_of_ne_running hr]
        exact ⟨_, hv.map fun _ => m.step.machine.space.register .r1⟩

theorem perform_tellsWithCause (m : Machine) (c : Command) :
    ∃ v, (m.perform c).TellsWithCause m.config v := by
  cases c with
  | step =>
      obtain ⟨v, hv⟩ := m.step_tellsWithCause
      exact ⟨_, hv.map _⟩
  | run =>
      obtain ⟨v, hv⟩ := m.run_tellsWithCause
      exact ⟨_, hv.map _⟩
  | reload code => exact ⟨.ok .none, Turn.tellsWithCause_ok ⟨rfl, rfl, fun _ => rfl⟩⟩
  | setTrace on => exact ⟨.ok .none, Turn.tellsWithCause_ok ⟨rfl, rfl, fun _ => rfl⟩⟩
  | edit e => exact ⟨.ok .none, Turn.tellsWithCause_ok ⟨rfl, rfl, fun _ => rfl⟩⟩

/-- A fault that a command answers with has a cause, and so has a fault that it reports. -/
theorem hasCause_of_perform {m : Machine} {c : Command} {f : Fault}
    (h : (m.perform c).answer = .fault f ∨ .faulted f ∈ (m.perform c).log) : f.HasCause := by
  obtain ⟨v, hv⟩ := m.perform_tellsWithCause c
  rcases h with h | h
  · exact hv.cause f (FaultPolicy.eq_error_of_answer (hv.tells.answer.symm.trans h))
  · exact hv.cause f ((hv.tells.faulted_mem_log_iff f).mp h)

/-- A command that aborts does so with the text of a fault that it has reported. -/
theorem exists_faulted_of_abort {m : Machine} {c : Command} {message : String}
    (h : (m.perform c).answer = .abort message) :
    ∃ f, .faulted f ∈ (m.perform c).log ∧ message = f.text := by
  obtain ⟨v, hv⟩ := m.perform_tellsWithCause c
  have ha := hv.tells.answer.symm.trans h
  cases v with
  | ok a => cases ha
  | error f =>
      refine ⟨f, (hv.tells.faulted_mem_log_iff f).mpr rfl, ?_⟩
      cases hp : m.config.policy with
      | report =>
          rw [hp] at ha
          cases ha
      | abort =>
          rw [hp] at ha
          cases ha
          rfl

end Machine

end KeyIndexMachine
