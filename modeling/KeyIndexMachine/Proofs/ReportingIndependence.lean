import KeyIndexMachine.Machine.Request
import KeyIndexMachine.Proofs.LeashThreshold
import KeyIndexMachine.Proofs.RunCourse

/-!
# Reporting does not interfere

Two settings of a machine only concern what it says: whether it reports its trace, and what it
makes of a fault. Machines that differ in nothing else go through the same states whatever is asked
of them, also when one of them aborts. Behind their two answers stands one verdict, a result or a
fault, which each policy words in its own way. The faults in the two reports are those of the
verdict, and without the trace a report holds nothing else.
-/
namespace KeyIndexMachine

/-- How a policy words a result or a fault. -/
def FaultPolicy.answer {α : Type} (p : FaultPolicy) : Except Fault α → Answer α
  | .ok a => .value a
  | .error f =>
      match p with
      | .report => .fault f
      | .abort => .abort f.text

/-- What is reported under every setting: a fault, once. -/
def faultEvents {α : Type} : Except Fault α → List Event
  | .ok _ => []
  | .error f => [.faulted f]

/-- The turn answers and reports this verdict as the settings ask for it. -/
structure Turn.Tells {α : Type} (t : Turn α) (c : Config) (v : Except Fault α) : Prop where
  answer : t.answer = c.policy.answer v
  faults : t.log.filter (fun e => !e.isTrace) = faultEvents v
  quiet : c.trace = false → t.log = faultEvents v

namespace Machine

/-- Equal but for what is reported and for what becomes of a fault. -/
structure SameButReporting (m₁ m₂ : Machine) : Prop where
  space : m₁.space = m₂.space
  state : m₁.state = m₂.state
  leash : m₁.leash = m₂.leash
  steps : m₁.steps = m₂.steps
  wholeLeash : m₁.config.leash = m₂.config.leash
  programKey : m₁.config.programKey = m₂.config.programKey

/-- The same operation on two machines has left them equal but for reporting, and both tell the
same verdict. -/
structure Agreement {α : Type} (m₁ m₂ : Machine) (t₁ t₂ : Turn α) : Prop where
  machines : SameButReporting t₁.machine t₂.machine
  verdict : ∃ v, t₁.Tells m₁.config v ∧ t₂.Tells m₂.config v

end Machine

theorem FaultPolicy.answer_eq_value_iff {α : Type} {p : FaultPolicy} {v : Except Fault α} {a : α} :
    p.answer v = .value a ↔ v = .ok a := by
  cases v with
  | ok b => simp [answer]
  | error f => cases p <;> simp [answer]

theorem FaultPolicy.eq_error_of_answer {α : Type} {p : FaultPolicy} {v : Except Fault α}
    {f : Fault} (h : p.answer v = .fault f) : v = .error f := by
  cases v with
  | ok a => simp [answer] at h
  | error g => cases p <;> simp_all [answer]

theorem Instruction.isTrace_of_mem_accesses {i : Instruction} {s : AddressSpace} {e : Event}
    (h : e ∈ i.accesses s) : e.isTrace = true := by
  simp only [accesses, List.mem_append, Option.mem_toList, Option.map_eq_some_iff] at h
  rcases h with (⟨a, -, rfl⟩ | ⟨a, -, rfl⟩) | ⟨a, -, rfl⟩ <;> rfl

namespace Machine

theorem filter_traced (m : Machine) {events : List Event} (h : ∀ e ∈ events, e.isTrace = true) :
    (m.traced events).filter (fun e => !e.isTrace) = [] := by
  rw [List.filter_eq_nil_iff]
  intro e he
  unfold traced at he
  split at he
  · simp [h e he]
  · simp at he

theorem traced_of_quiet {m : Machine} (h : m.config.trace = false) (events : List Event) :
    m.traced events = [] := by
  simp [traced, h]

end Machine

namespace Turn

variable {α β : Type}

theorem tells_value {m n : Machine} {events : List Event} (h : ∀ e ∈ events, e.isTrace = true)
    (a : α) : Tells ⟨n, m.traced events, .value a⟩ m.config (.ok a) where
  answer := rfl
  faults := m.filter_traced h
  quiet := fun hq => Machine.traced_of_quiet hq events

/-- A machine that stops after its fetch tells of the fault, whatever it has paid. -/
theorem tells_stop (m n : Machine) (hc : n.config = m.config)
    (hs : n.space = m.space.fetch.space) (kind : FaultKind) (events : List Event)
    (h : ∀ e ∈ events, e.isTrace = true) :
    (n.stop kind m.space.fetch (m.traced events) : Turn α).Tells m.config
      (.error (m.report kind)) := by
  have hf : (⟨kind, m.space.fetch.word, m.space.fetch.address, n.space.registers⟩ : Fault) =
      m.report kind := by rw [hs]; rfl
  simp only [Machine.stop, hc, hf]
  refine ⟨?_, ?_, ?_⟩
  · cases m.config.policy <;> rfl
  · rw [List.filter_append, m.filter_traced h]
    rfl
  · intro hq
    rw [Machine.traced_of_quiet hq]
    rfl

theorem Tells.map {t : Turn α} {c : Config} {v : Except Fault α} (h : t.Tells c v) (g : α → β) :
    (t.map g).Tells c (v.map g) := by
  have hv : faultEvents (v.map g) = faultEvents v := by cases v <;> rfl
  refine ⟨?_, hv ▸ h.faults, hv ▸ h.quiet⟩
  rw [Turn.map, h.answer]
  cases v with
  | ok a => rfl
  | error f => cases hp : c.policy <;> rfl

/-- The report of a step that went well can go in front. -/
theorem Tells.withPast {t : Turn α} {c : Config} {v : Except Fault α} (h : t.Tells c v)
    {s : Turn β} {b : β} (hs : s.Tells c (.ok b)) : (t.withPast s.log).Tells c v := by
  refine ⟨h.answer, ?_, ?_⟩
  · rw [Turn.withPast, List.filter_append, hs.faults, h.faults]
    rfl
  · intro hq
    rw [Turn.withPast, hs.quiet hq, h.quiet hq]
    rfl

end Turn

namespace Machine

variable {m₁ m₂ : Machine}

theorem tells_exhausted (m : Machine) :
    (m.advanced.stop .ranTooLong m.space.fetch [] : Turn State).Tells m.config
      (.error (m.report .ranTooLong)) := by
  have h : (m.advanced.stop .ranTooLong m.space.fetch (m.traced []) : Turn State).Tells m.config
      (.error (m.report .ranTooLong)) :=
    Turn.tells_stop m m.advanced rfl rfl .ranTooLong [] (by simp)
  simpa [traced] using h

theorem tells_refused (m : Machine) (kind : FaultKind) :
    (m.paid.stop kind m.space.fetch (m.traced [m.fetched]) : Turn State).Tells m.config
      (.error (m.report kind)) := by
  refine Turn.tells_stop m m.paid rfl rfl kind [m.fetched] ?_
  simp [fetched, Event.isTrace]

theorem tells_done (m : Machine) (s : AddressSpace) :
    Turn.Tells ⟨{ m.paid with space := s }, m.traced (m.fetched ::
      m.space.fetch.instruction.accesses m.space.fetch.space ++ [.settled s.registers]),
      .value .running⟩ m.config (.ok State.running) := by
  refine Turn.tells_value ?_ _
  intro e he
  simp only [List.cons_append, List.mem_cons, List.mem_append, List.not_mem_nil, or_false] at he
  rcases he with rfl | he | rfl
  · rfl
  · exact Instruction.isTrace_of_mem_accesses he
  · rfl

theorem SameButReporting.step (h : SameButReporting m₁ m₂) :
    Agreement m₁ m₂ m₁.step m₂.step := by
  have hst := h.state
  have hsp := h.space
  have hle := h.leash
  have hr : ∀ kind, m₂.report kind = m₁.report kind := fun kind => by rw [report, report, hsp]
  cases m₁.stepCase with
  | stayed hs =>
      rw [step_of_halted hs, step_of_halted (hst ▸ hs)]
      exact ⟨h, .ok .halted, ⟨rfl, rfl, fun _ => rfl⟩, ⟨rfl, rfl, fun _ => rfl⟩⟩
  | ended hs hw =>
      rw [step_of_ended hs hw, step_of_ended (hst ▸ hs) (hsp ▸ hw)]
      refine ⟨⟨by simp [advanced, hsp], rfl, hle, h.steps, h.wholeLeash, h.programKey⟩,
        .ok .halted, Turn.tells_value ?_ _, Turn.tells_value ?_ _⟩ <;> simp [Event.isTrace]
  | exhausted hs hw hl =>
      rw [step_of_exhausted hs hw hl, step_of_exhausted (hst ▸ hs) (hsp ▸ hw) (hle ▸ hl)]
      exact ⟨⟨by simp [stop, advanced, hsp], rfl, hle, h.steps, h.wholeLeash, h.programKey⟩,
        .error (m₁.report .ranTooLong), tells_exhausted m₁, hr .ranTooLong ▸ tells_exhausted m₂⟩
  | skipped hs hw hl ho =>
      rw [step_of_skipped hs hw hl ho,
        step_of_skipped (hst ▸ hs) (hsp ▸ hw) (hle ▸ hl) (hsp ▸ ho)]
      refine ⟨⟨by simp [paid, hsp], hst, by simp [paid, hle], by simp [paid, h.steps],
        h.wholeLeash, h.programKey⟩, .ok .running, Turn.tells_value ?_ _,
        Turn.tells_value ?_ _⟩ <;> simp [Event.isTrace, fetched]
  | done s hs hw hl ho =>
      rw [step_of_done hs hw hl ho, step_of_done (hst ▸ hs) (hsp ▸ hw) (hle ▸ hl) (hsp ▸ ho)]
      exact ⟨⟨rfl, hst, by simp [paid, hle], by simp [paid, h.steps], h.wholeLeash,
        h.programKey⟩, .ok .running, tells_done m₁ s, tells_done m₂ s⟩
  | refused kind hs hw hl ho =>
      rw [step_of_refused hs hw hl ho,
        step_of_refused (hst ▸ hs) (hsp ▸ hw) (hle ▸ hl) (hsp ▸ ho)]
      exact ⟨⟨by simp [stop, paid, hsp], rfl, by simp [stop, paid, hle],
        by simp [stop, paid, h.steps], h.wholeLeash, h.programKey⟩, .error (m₁.report kind),
        tells_refused m₁ kind, hr kind ▸ tells_refused m₂ kind⟩

/-- What one machine answers as a fault, the other one aborts with if that is its policy. -/
theorem Agreement.abort_of_fault {α : Type} {t₁ t₂ : Turn α} (h : Agreement m₁ m₂ t₁ t₂)
    (hp : m₂.config.policy = .abort) {f : Fault} (hf : t₁.answer = .fault f) :
    t₂.answer = .abort f.text := by
  obtain ⟨v, h₁, h₂⟩ := h.verdict
  have hv : v = .error f := FaultPolicy.eq_error_of_answer (h₁.answer.symm.trans hf)
  rw [h₂.answer, hp, hv]
  rfl

theorem Agreement.map {α β : Type} {t₁ t₂ : Turn α} (h : Agreement m₁ m₂ t₁ t₂) (g : α → β) :
    Agreement m₁ m₂ (t₁.map g) (t₂.map g) := by
  obtain ⟨v, h₁, h₂⟩ := h.verdict
  exact ⟨h.machines, v.map g, h₁.map g, h₂.map g⟩

/-- The two runs take the same number of steps, since a step that goes on does so on both. -/
theorem SameButReporting.run (h : SameButReporting m₁ m₂) : Agreement m₁ m₂ m₁.run m₂.run := by
  induction hl : m₁.leash using Nat.strongRecOn generalizing m₁ m₂ with
  | _ leash ih =>
      obtain ⟨hm, v, h₁, h₂⟩ := h.step
      by_cases hv : v = .ok .running
      · subst hv
        have ha₁ : m₁.step.answer = .value .running := h₁.answer
        have ha₂ : m₂.step.answer = .value .running := h₂.answer
        have hp := (pays_of_running ha₁).2.2.1
        obtain ⟨hr, w, hw₁, hw₂⟩ := ih m₁.step.machine.leash (by omega) hm rfl
        rw [config_step] at hw₁ hw₂
        rw [run_of_running ha₁, run_of_running ha₂]
        exact ⟨hr, w, hw₁.withPast h₁, hw₂.withPast h₂⟩
      · have hne : ∀ p : FaultPolicy, p.answer v ≠ .value .running :=
          fun p => mt FaultPolicy.answer_eq_value_iff.mp hv
        rw [run_of_ne_running (h₁.answer ▸ hne _), run_of_ne_running (h₂.answer ▸ hne _),
          Turn.ending, Turn.ending, hm.space]
        exact Agreement.map ⟨hm, v, h₁, h₂⟩ fun _ => m₂.step.machine.space.register .r1

variable {ρ : Type}

/-- What always succeeds and reports nothing. -/
theorem agreement_silent {α : Type} {n₁ n₂ : Machine} (h : SameButReporting n₁ n₂) (a : α) :
    Agreement m₁ m₂ ⟨n₁, [], .value a⟩ ⟨n₂, [], .value a⟩ :=
  ⟨h, .ok a, ⟨rfl, rfl, fun _ => rfl⟩, ⟨rfl, rfl, fun _ => rfl⟩⟩

theorem SameButReporting.reload (h : SameButReporting m₁ m₂) (code : List Word) :
    SameButReporting (m₁.reload code) (m₂.reload code) := by
  refine ⟨?_, rfl, h.wholeLeash, rfl, h.wholeLeash, h.programKey⟩
  simp [Machine.reload, AddressSpace.edit, h.programKey]

theorem SameButReporting.withSpace (h : SameButReporting m₁ m₂) (s : AddressSpace) :
    SameButReporting { m₁ with space := s } { m₂ with space := s } :=
  ⟨rfl, h.state, h.leash, h.steps, h.wholeLeash, h.programKey⟩

theorem SameButReporting.setTrace (h : SameButReporting m₁ m₂) (on : Bool) :
    SameButReporting (m₁.setTrace on) (m₂.setTrace on) :=
  ⟨h.space, h.state, h.leash, h.steps, h.wholeLeash, h.programKey⟩

theorem SameButReporting.perform (h : SameButReporting m₁ m₂) (c : Command) :
    Agreement m₁ m₂ (m₁.perform c) (m₂.perform c) := by
  cases c with
  | step => exact h.step.map _
  | run => exact h.run.map _
  | reload code => exact agreement_silent (h.reload code) _
  | setTrace on => exact agreement_silent (h.setTrace on) _
  | edit e =>
      simp only [Machine.perform, Machine.edit, h.space]
      exact agreement_silent (h.withSpace _) _

theorem SameButReporting.serve (h : SameButReporting m₁ m₂) (r : Request ρ) :
    Agreement m₁ m₂ (m₁.serve r) (m₂.serve r) := by
  cases r with
  | command c => exact (h.perform c).map _
  | visit work =>
      simp only [Machine.serve, h.space]
      exact agreement_silent (h.withSpace _) _

theorem SameButReporting.serveAll (h : SameButReporting m₁ m₂) (history : List (Request ρ)) :
    SameButReporting (m₁.serveAll history) (m₂.serveAll history) := by
  induction history generalizing m₁ m₂ with
  | nil => exact h
  | cons r history ih => exact ih (h.serve r).machines

theorem policy_serve (m : Machine) (r : Request ρ) :
    (m.serve r).machine.config.policy = m.config.policy := by
  cases r with
  | visit work => rfl
  | command c =>
      cases c with
      | step => exact congrArg Config.policy m.config_step
      | run => exact congrArg Config.policy m.config_run
      | reload code => rfl
      | setTrace on => rfl
      | edit e => rfl

theorem policy_serveAll (m : Machine) (history : List (Request ρ)) :
    (m.serveAll history).config.policy = m.config.policy := by
  induction history generalizing m with
  | nil => rfl
  | cons r history ih => rw [serveAll_cons, ih, policy_serve]

/-- Whatever two machines that are equal but for reporting have been asked, and whatever they are
asked next, they remain equal but for reporting and keep their policies, and their answers and
reports tell the same verdict. -/
theorem serve_agrees (h : SameButReporting m₁ m₂) (history : List (Request ρ))
    (next : Request ρ) :
    SameButReporting (m₁.serveAll history) (m₂.serveAll history) ∧
    (m₁.serveAll history).config.policy = m₁.config.policy ∧
    (m₂.serveAll history).config.policy = m₂.config.policy ∧
    Agreement (m₁.serveAll history) (m₂.serveAll history)
      ((m₁.serveAll history).serve next) ((m₂.serveAll history).serve next) :=
  ⟨h.serveAll history, policy_serveAll m₁ history, policy_serveAll m₂ history,
    (h.serveAll history).serve next⟩

/-- The same machine with its trace on and faults that abort. -/
def outspoken (m : Machine) : Machine :=
  { m with config := { m.config with trace := true, policy := .abort } }

/-- Puts 7 into `r3` and brings back what it held. -/
def exchange : Request Word := .visit fun s => (s.setRegister .r3 7#64, s.register .r3)

/-- After a visit the word in `r1` runs, whose opcode is none. One machine answers with the fault
that the other one aborts with. -/
theorem serve_agrees_inRegisters :
    SameButReporting (inRegisters 0x0100CD7A#64 5) (inRegisters 0x0100CD7A#64 5).outspoken ∧
    ∃ f, f.kind = .illegalOpcode 0x7A ∧
      (((inRegisters 0x0100CD7A#64 5).serveAll [exchange]).serve
        (.command .run : Request Word)).answer = .fault f ∧
      (((inRegisters 0x0100CD7A#64 5).outspoken.serveAll [exchange]).serve
        (.command .run : Request Word)).answer = .abort f.text := by
  have h : SameButReporting (inRegisters 0x0100CD7A#64 5)
      (inRegisters 0x0100CD7A#64 5).outspoken := ⟨rfl, rfl, rfl, rfl, rfl, rfl⟩
  have hf : ∃ f, f.kind = .illegalOpcode 0x7A ∧
      (((inRegisters 0x0100CD7A#64 5).serveAll [exchange]).serve
        (.command .run : Request Word)).answer = .fault f := by
    have c : Course ((inRegisters 0x0100CD7A#64 5).serveAll [exchange]) 0 :=
      ⟨by omega, by decide⟩
    rw [serve, perform, Turn.map, Turn.map, c.run_eq.2]
    exact ⟨_, rfl, rfl⟩
  obtain ⟨f, hk, ha⟩ := hf
  obtain ⟨-, -, hp, ha'⟩ := serve_agrees h [exchange] (.command .run : Request Word)
  exact ⟨h, f, hk, ha, ha'.abort_of_fault hp ha⟩

end Machine

end KeyIndexMachine
