import KeyIndexMachine.Proofs.Assembly.WordRoundTrip
import KeyIndexMachine.Proofs.StepCases

/-!
# Executing a word after it went through its text

A word that is written as text and assembled again comes back in normal form, which need not be the
same word. The two are executed alike as long as register `$0` holds zero: the constant zero has
become that register, and the reserved bits and the registers of a condition that asks nothing are
not looked at. The destination must not be a constant, since the constant zero would come back as a
register that can be written to.

Executing is what a step does with a word once it is fetched and paid for. `step_of_execute_ok` and
`step_of_execute_error` say so.
-/
namespace KeyIndexMachine

namespace Machine

/-- What a word makes of a machine when it is executed, or why it is refused. -/
def execute (m : Machine) (w : Word) : Except FaultKind Machine :=
  match (Instruction.ofWord w).execute m.space with
  | .skipped => .ok m
  | .done s => .ok { m with space := s }
  | .refused kind => .error kind

variable {m n : Machine} {kind : FaultKind}

theorem execute_paid (m : Machine) :
    m.paid.execute m.space.fetch.word =
      match m.space.fetch.outcome with
      | .skipped => .ok m.paid
      | .done s => .ok { m.paid with space := s }
      | .refused kind => .error kind := rfl

/-- A step that pays for a word goes on with what executing it makes of the machine. -/
theorem step_of_execute_ok (hs : m.state = .running) (hw : m.space.fetch.word ≠ 0#64)
    (hl : m.leash ≠ 0) (h : m.paid.execute m.space.fetch.word = .ok n) :
    m.step.machine = n ∧ m.step.answer = .value .running := by
  rw [execute_paid] at h
  cases ho : m.space.fetch.outcome with
  | skipped =>
      rw [ho] at h
      cases h
      rw [step_of_skipped hs hw hl ho]
      exact ⟨rfl, rfl⟩
  | done s =>
      rw [ho] at h
      cases h
      rw [step_of_done hs hw hl ho]
      exact ⟨rfl, rfl⟩
  | refused kind =>
      rw [ho] at h
      cases h

/-- It stops if the word is refused. -/
theorem step_of_execute_error (hs : m.state = .running) (hw : m.space.fetch.word ≠ 0#64)
    (hl : m.leash ≠ 0) (h : m.paid.execute m.space.fetch.word = .error kind) :
    m.step = m.paid.stop kind m.space.fetch (m.traced [m.fetched]) := by
  rw [execute_paid] at h
  cases ho : m.space.fetch.outcome with
  | skipped =>
      rw [ho] at h
      cases h
  | done s =>
      rw [ho] at h
      cases h
  | refused k =>
      rw [ho] at h
      cases h
      exact step_of_refused hs hw hl ho

end Machine

namespace AddressSpace

variable {s : AddressSpace}

/-- The constant zero comes back as the register `$0`, which holds it. -/
theorem valueOf_spelled (h0 : s.register .zero = 0#64) (o : Operand) :
    s.valueOf o.spelled = s.valueOf o := by
  cases o with
  | register r => rfl
  | indirect k x => rfl
  | constant v =>
      by_cases hv : v = 0
      · subst hv
        exact h0
      · rw [Operand.spelled, if_neg hv]

end AddressSpace

theorem Operand.spelled_eq_self {o : Operand} (h : o.isConstant = false) : o.spelled = o := by
  cases o with
  | register r => rfl
  | indirect k x => rfl
  | constant v => cases h

namespace Instruction

variable {i : Instruction} {s : AddressSpace}

theorem proceeds_spelled (i : Instruction) (f : RegisterFile) :
    i.spelled.proceeds f = i.proceeds f := by
  by_cases hc : i.condition.comparison = .always
  · have hi : i.isConditional = false := by simp [isConditional, hc]
    have hs : i.spelled.isConditional = false := by
      simp [isConditional, spelled, Condition.spelled, hc, Condition.always]
    simp only [proceeds, hi, hs, Bool.not_false, Bool.true_or]
  · have hs : i.spelled.condition = i.condition := by
      rw [spelled, Condition.spelled, if_neg hc]
    rw [proceeds, proceeds, isConditional, isConditional, hs]

/-- With zero in register `$0`, an instruction and the one that its text denotes have the same
outcome. -/
theorem execute_spelled (h0 : s.register .zero = 0#64) (hd : i.destination.isConstant = false) :
    i.spelled.execute s = i.execute s := by
  have hs : i.spelled.destination = i.destination := Operand.spelled_eq_self hd
  have ho : i.spelled.operation? = i.operation? := rfl
  have ha : s.valueOf i.spelled.sourceA = s.valueOf i.sourceA := AddressSpace.valueOf_spelled h0 _
  have hb : s.valueOf i.spelled.sourceB = s.valueOf i.sourceB := AddressSpace.valueOf_spelled h0 _
  have hc : i.spelled.opcode = i.opcode := rfl
  rw [execute, execute, proceeds_spelled, hs, ho, ha, hb, hc]

end Instruction

namespace Machine

theorem exists_execute_eq_ok {w : Word} (h : (Instruction.ofWord w).objection? = none)
    (m : Machine) : ∃ n, m.execute w = .ok n := by
  unfold execute
  cases ho : (Instruction.ofWord w).execute m.space with
  | skipped => exact ⟨m, rfl⟩
  | done s => exact ⟨_, rfl⟩
  | refused kind =>
      have hk := (Instruction.execute_eq_refused_iff.mp ho).2
      rw [h] at hk
      cases hk

theorem execute_normalized {w : Word} (m : Machine) (h0 : m.space.register .zero = 0#64)
    (hd : (Instruction.ofWord w).destination.isConstant = false) :
    m.execute w.normalized = m.execute w := by
  rw [execute, execute, Instruction.ofWord_normalized, Instruction.execute_spelled h0 hd]

end Machine

namespace Word

theorem isConstant_destination_ofWord {w : Word} (hd : Field.dKey.nibble w ≠ 8) :
    (Instruction.ofWord w).destination.isConstant = false := by
  have hn : ∀ k x : Nibble, k ≠ 8 → (Operand.ofNibbles k x).isConstant = false := by decide
  exact hn _ _ hd

/-- The text of a word with an operation and no constant for a destination is assembled, and on
every machine that holds zero in register `$0` the assembled word is executed as the word itself is:
both go well, and both leave the same machine behind. -/
theorem exists_ofLine_execute {w : Word} (ho : w.HasOperation) (hd : Field.dKey.nibble w ≠ 8) :
    ∃ v, Word.ofLine w.text = .ok v ∧ ∀ m : Machine, m.space.register .zero = 0#64 →
      ∃ n, m.execute w = .ok n ∧ m.execute v = .ok n := by
  obtain ⟨o, hop⟩ := Option.isSome_iff_exists.mp ((Instruction.isSome_operation?_ofWord w).mpr ho)
  have hc := isConstant_destination_ofWord hd
  have hw : ¬ w.WritesConstant := fun h => hd h.1
  refine ⟨w.normalized, ?_, ?_⟩
  · rw [ofLine_text_of_operation hop, if_neg hw]
  · intro m h0
    obtain ⟨n, hn⟩ := m.exists_execute_eq_ok (Instruction.objection?_eq_none hop hc)
    exact ⟨n, hn, (m.execute_normalized h0 hc).trans hn⟩

/-- A word with a reserved bit, two registers of a condition that asks nothing, and the constant
zero for its first source, all of which its text leaves out. -/
theorem exists_ofLine_execute_open_bits :
    Word.HasOperation 0x1305018002FF#64 ∧ Field.dKey.nibble 0x1305018002FF#64 ≠ 8 ∧
    ∃ n, Word.ofLine (Word.text 0x1305018002FF#64) = .ok 0x10002FF#64 ∧
      (Machine.ofSpace (AddressSpace.empty.setRegister .r2 7#64) {}).execute 0x1305018002FF#64 =
        .ok n ∧
      (Machine.ofSpace (AddressSpace.empty.setRegister .r2 7#64) {}).execute 0x10002FF#64 =
        .ok n ∧
      n.space.register .r1 = 7#64 := by
  have ho : Word.HasOperation 0x1305018002FF#64 := by decide
  have hd : Field.dKey.nibble 0x1305018002FF#64 ≠ 8 := by decide
  have hl : Word.ofLine (Word.text 0x1305018002FF#64) = .ok 0x10002FF#64 := by
    rw [ofLine_text_of_operation (o := .add) rfl, if_neg (by decide)]
    exact congrArg Except.ok (by decide)
  obtain ⟨v, hv, h⟩ := exists_ofLine_execute ho hd
  cases hl.symm.trans hv
  obtain ⟨n, hn, hn'⟩ := h (Machine.ofSpace (AddressSpace.empty.setRegister .r2 7#64) {}) rfl
  refine ⟨ho, hd, n, hl, hn, hn', ?_⟩
  cases hn
  rfl

/-- With one in register `$0` the same two words part. -/
example :
    ((Machine.ofSpace (AddressSpace.empty.setRegister .zero 1#64) {}).execute
      0x1305018002FF#64).map (·.space.register .r1) = .ok 0#64 ∧
    ((Machine.ofSpace (AddressSpace.empty.setRegister .zero 1#64) {}).execute
      0x10002FF#64).map (·.space.register .r1) = .ok 1#64 :=
  ⟨rfl, rfl⟩

end Word

end KeyIndexMachine
