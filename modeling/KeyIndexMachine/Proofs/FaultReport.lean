import KeyIndexMachine.Machine.Command
import KeyIndexMachine.Proofs.LeashThreshold
import KeyIndexMachine.Proofs.ReferenceMachine

/-!
# What a fault leaves behind

A fault is atomic: of the instruction that gave rise to it nothing has happened except that `PX`
has moved past it and, unless there was no leash left, that it was paid for. Its report is exact:
it shows the registers as they are now, the word at the address that was fetched from, and a kind
that follows from the leash and from that word alone. `FaultReport` puts this together for the
machine just before the failing step and the machine after it, and `faultReport_of_answer` proves
it of every step and every run. The fetched word is read in the space in which `PX` has moved
already, so under `PK` 0 it may be the advanced `PX` itself.
-/
namespace KeyIndexMachine

/-- The kind of the fault is the first objection that its word is open to, the condition in the word
being met by the registers in the report. -/
structure Fault.FitsWord (f : Fault) : Prop where
  met : (Instruction.ofWord f.word).isConditional = true →
    (Instruction.ofWord f.word).condition.holds f.registers = true
  illegalOpcode_iff : f.kind = .illegalOpcode (Reference.opcode f.word) ↔
    Reference.opcode f.word ≠ 0xFF ∧ Reference.opcode f.word ≠ 0xFE
  illegalWrite : ¬ (Reference.opcode f.word ≠ 0xFF ∧ Reference.opcode f.word ≠ 0xFE) →
    Reference.nibbleAt f.word 28 = 8 ∧
      f.kind = .illegalWrite ((Reference.nibbleAt f.word 24).setWidth 8)

/-- A step has taken the machine `s` to the machine `t` with this fault. -/
structure FaultReport (s t : Machine) (f : Fault) : Prop where
  state : t.state = .halted
  config : t.config = s.config
  memory : t.space.memory = s.space.memory
  px : t.space.register .px = s.space.register .px + 1
  others : ∀ r, r ≠ .px → t.space.register r = s.space.register r
  registers : f.registers = t.space.registers
  address : f.address = ⟨s.space.register .pk, s.space.register .px⟩
  word_ne_zero : f.word ≠ 0#64
  word_eq_read : f.word = t.space.read f.address
  ranTooLong_iff : f.kind = .ranTooLong ↔ s.leash = 0
  unpaid : s.leash = 0 → t.leash = s.leash ∧ t.steps = s.steps
  paid : s.leash ≠ 0 → s.leash = t.leash + 1 ∧ t.steps = s.steps + 1 ∧ f.FitsWord

theorem Operand.eq_constant_of_ofNibbles {k x : Nibble} {v : Byte}
    (h : ofNibbles k x = .constant v) : k = 8 ∧ v = x.setWidth 8 := by
  unfold ofNibbles at h
  split at h
  · cases h
  · split at h
    · rename_i hk
      cases h
      exact ⟨hk, rfl⟩
    · cases h

theorem Instruction.nibbleAt_of_destination {w : Word} {v : Byte}
    (h : (ofWord w).destination = .constant v) :
    Reference.nibbleAt w 28 = 8 ∧ v = (Reference.nibbleAt w 24).setWidth 8 := by
  rw [Reference.destination_ofWord] at h
  exact Operand.eq_constant_of_ofNibbles h

theorem Fault.fitsWord_of_refused {f : Fault} {s : AddressSpace}
    (h : (Instruction.ofWord f.word).execute s = .refused f.kind)
    (hr : f.registers = s.registers) : f.FitsWord := by
  obtain ⟨hp, hk⟩ := Instruction.refused_cases h
  have hmet : (Instruction.ofWord f.word).isConditional = true →
      (Instruction.ofWord f.word).condition.holds f.registers = true := by
    intro hc
    simpa [Instruction.proceeds, hc, ← hr] using hp
  rcases hk with ⟨ho, hk⟩ | ⟨v, ho, hd, hk⟩
  · have hc := Reference.operation_refused ho
    rw [Reference.opcode_ofWord] at hk
    exact ⟨hmet, iff_of_true hk hc, fun hn => absurd hc hn⟩
  · obtain ⟨o, ho⟩ := Option.ne_none_iff_exists'.mp ho
    have hc := (Reference.operation_applied ho 0 0).1
    obtain ⟨h28, rfl⟩ := Instruction.nibbleAt_of_destination hd
    refine ⟨hmet, iff_of_false ?_ hc, fun _ => ⟨h28, hk⟩⟩
    rw [hk]
    intro he
    cases he

namespace Machine

/-- A step fails for want of leash, or else because its instruction is refused. -/
theorem fault_cases {m : Machine} {f : Fault} (h : m.step.answer = .fault f) :
    m.space.fetch.word ≠ 0#64 ∧
      ((m.leash = 0 ∧ f = m.report .ranTooLong ∧
          m.step.machine = { m.advanced with state := .halted }) ∨
        ∃ kind, m.leash ≠ 0 ∧ m.space.fetch.outcome = .refused kind ∧ f = m.report kind ∧
          m.step.machine = { m.paid with state := .halted }) := by
  have hstop : ∀ {n : Machine} {kind : FaultKind} {past : List Event},
      (n.stop kind m.space.fetch past : Turn State).answer = .fault f →
        f = ⟨kind, m.space.fetch.word, m.space.fetch.address, n.space.registers⟩ := by
    intro n kind past hn
    cases hp : n.config.policy <;> simp [stop, hp] at hn
    exact hn.symm
  cases m.stepCase with
  | stayed hs => simp [step_of_halted hs] at h
  | ended hs hw => simp [step_of_ended hs hw] at h
  | skipped hs hw hl ho => simp [step_of_skipped hs hw hl ho] at h
  | done s hs hw hl ho => simp [step_of_done hs hw hl ho] at h
  | exhausted hs hw hl =>
      rw [step_of_exhausted hs hw hl] at h ⊢
      exact ⟨hw, .inl ⟨hl, hstop h, rfl⟩⟩
  | refused kind hs hw hl ho =>
      rw [step_of_refused hs hw hl ho] at h ⊢
      exact ⟨hw, .inr ⟨kind, hl, ho, hstop h, rfl⟩⟩

/-- Whichever way the step fails, the space is the one that the fetch left behind. -/
theorem faultReport_step {m : Machine} {f : Fault} (h : m.step.answer = .fault f) :
    FaultReport m m.step.machine f := by
  obtain ⟨hw, hcases⟩ := fault_cases h
  have hpx : m.space.fetch.space.register .px = m.space.register .px + 1 :=
    RegisterFile.get_set_self _ _ _
  have hothers : ∀ r, r ≠ .px → m.space.fetch.space.register r = m.space.register r :=
    fun r hr => RegisterFile.get_set_of_ne _ (Ne.symm hr) _
  rcases hcases with ⟨hl, rfl, hm⟩ | ⟨kind, hl, ho, rfl, hm⟩
  · rw [hm]
    exact {
      state := rfl, config := rfl, memory := rfl, px := hpx, others := hothers
      registers := rfl, address := rfl, word_ne_zero := hw, word_eq_read := rfl
      ranTooLong_iff := iff_of_true rfl hl
      unpaid := fun _ => ⟨rfl, rfl⟩
      paid := fun hn => absurd hl hn }
  · have hf : (m.report kind).FitsWord := Fault.fitsWord_of_refused ho rfl
    have hk : (m.report kind).kind ≠ .ranTooLong := Instruction.ne_ranTooLong_of_refused ho
    rw [hm]
    exact {
      state := rfl, config := rfl, memory := rfl, px := hpx, others := hothers
      registers := rfl, address := rfl, word_ne_zero := hw, word_eq_read := rfl
      ranTooLong_iff := iff_of_false hk hl
      unpaid := fun hz => absurd hz hl
      paid := fun _ => ⟨(Nat.sub_add_cancel (Nat.pos_of_ne_zero hl)).symm, rfl, hf⟩ }

theorem answer_eq_fault_of_ending {t : Turn State} {f : Fault} (h : t.ending = .fault f) :
    t.answer = .fault f := by
  cases ha : t.answer with
  | value s => simp [Turn.ending, ha, Answer.map] at h
  | fault g => simpa [Turn.ending, ha, Answer.map] using h
  | abort message => simp [Turn.ending, ha, Answer.map] at h

/-- However often it is called, it answers and stays as it is, and reports nothing. -/
def AtRest (m : Machine) : Prop :=
  ∀ (calls : List Command) (c : Command), (∀ d ∈ c :: calls, d = .step ∨ d = .run) →
    ∃ reply, (m.performAll calls).perform c = ⟨m, [], .value reply⟩

theorem perform_of_halted {m : Machine} (h : m.state = .halted) {c : Command}
    (hc : c = .step ∨ c = .run) : ∃ reply, m.perform c = ⟨m, [], .value reply⟩ := by
  rcases hc with rfl | rfl
  · exact ⟨.state .halted, by rw [perform, step_of_halted h]; rfl⟩
  · exact ⟨.result (m.space.register .r1), by rw [perform, run_of_state_halted h]; rfl⟩

theorem atRest_of_halted {m : Machine} (h : m.state = .halted) : m.AtRest := by
  intro calls
  induction calls with
  | nil => exact fun c hc => perform_of_halted h (hc c (by simp))
  | cons d calls ih =>
      intro c hc
      obtain ⟨reply, hd⟩ := perform_of_halted h (hc d (by simp))
      rw [performAll_cons, hd]
      refine ih c fun e he => hc e ?_
      rcases List.mem_cons.mp he with rfl | he
      · exact List.mem_cons_self
      · exact List.mem_cons_of_mem _ (List.mem_cons_of_mem _ he)

/-- Every fault of a step or of a run is atomic and reported exactly, and the machine is at rest
from then on. For a run the report is about its last step, and all steps before it went well. -/
theorem faultReport_of_answer (m : Machine) (f : Fault) :
    (m.step.answer = .fault f → FaultReport m m.step.machine f ∧ m.step.machine.AtRest) ∧
    (m.run.answer = .fault f → ∃ n, Course m n ∧ (m.afterSteps n).step.answer = .fault f ∧
      m.run.machine = (m.afterSteps n).step.machine ∧
      FaultReport (m.afterSteps n) m.run.machine f ∧ m.run.machine.AtRest) := by
  refine ⟨?_, ?_⟩
  · intro h
    have hr := faultReport_step h
    exact ⟨hr, atRest_of_halted hr.state⟩
  · intro h
    obtain ⟨n, c⟩ := m.exists_course
    rw [c.run_eq.2] at h
    have ha := answer_eq_fault_of_ending h
    have hm : m.run.machine = (m.afterSteps n).step.machine := by
      rw [c.run_eq.1, afterSteps_succ_eq]
    have hr := faultReport_step ha
    exact ⟨n, c, ha, hm, hm ▸ hr, hm ▸ atRest_of_halted hr.state⟩

/-- `0x7A` is no opcode; `mov r2, $1` runs into the word 1, which is no instruction either. -/
theorem faultReport_of_answer_inRegisters :
    (∃ f, (inRegisters 0x0100CD7A#64 5).step.answer = .fault f ∧ f.kind = .illegalOpcode 0x7A ∧
      FaultReport (inRegisters 0x0100CD7A#64 5) (inRegisters 0x0100CD7A#64 5).step.machine f) ∧
    (∃ f n, (inRegisters 0x020081FF#64 2).run.answer = .fault f ∧
      FaultReport ((inRegisters 0x020081FF#64 2).afterSteps n)
        (inRegisters 0x020081FF#64 2).run.machine f) := by
  have hrun : ∃ f, (inRegisters 0x020081FF#64 2).run.answer = .fault f := by
    have c : Course (inRegisters 0x020081FF#64 2) 1 := by
      refine ⟨?_, by decide⟩
      intro k hk
      rcases k with _ | k
      · rfl
      · omega
    rw [c.run_eq.2]
    exact ⟨_, rfl⟩
  obtain ⟨f, hf⟩ := hrun
  obtain ⟨n, -, -, -, hn, -⟩ := (faultReport_of_answer _ f).2 hf
  exact ⟨⟨_, rfl, rfl, ((faultReport_of_answer _ _).1 rfl).1⟩, f, n, hf, hn⟩

end Machine

end KeyIndexMachine
