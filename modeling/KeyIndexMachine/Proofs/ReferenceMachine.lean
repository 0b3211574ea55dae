import KeyIndexMachine.Proofs.FieldLaws
import KeyIndexMachine.Proofs.StepCases

/-!
# The reference machine

The instruction set described once more, over one flat store: a word for every pair of a key and
an index, where key 0 holds sixteen words that repeat. There are no registers apart from the
store, no sparse memory, no operands and no decoded instructions; the nibbles are cut out of the
fetched word where they are needed. Only the order of the tests within one step and the contents
of a fault are shared with the machine proper.

`afterSteps_refines` says that the machine and the reference machine stay in step for any number
of steps and answer alike. The store forgets which cells are allocated, so nothing is said about
allocation here, and the trace is not part of an answer.
-/
namespace KeyIndexMachine.Reference

/-- One word for every key and index. -/
abbrev Store := Word → Word → Word

namespace Store

/-- Under key 0 a word is found again at every sixteenth index. -/
def put (M : Store) (key index w : Word) : Store := fun k x =>
  if k = key ∧ (x = index ∨ (key = 0#64 ∧ x % 16#64 = index % 16#64)) then w else M k x

def reg (M : Store) (n : Nibble) : Word := M 0#64 (n.setWidth 64)

def registers (M : Store) : RegisterFile :=
  ⟨Vector.ofFn fun i => M 0#64 (BitVec.ofNat 64 i.val)⟩

end Store

def nibbleAt (w : Word) (low : Nat) : Nibble := w.extractLsb' low 4

def opcode (w : Word) : Byte := w.extractLsb' 0 8

/-- Four of the sixteen codes compare, and they compare signed numbers. -/
def passesOver (M : Store) (w : Word) : Bool :=
  let a := (M.reg (nibbleAt w 40)).toInt
  let b := (M.reg (nibbleAt w 32)).toInt
  if nibbleAt w 36 = 0x1#4 then !decide (a < b)
  else if nibbleAt w 36 = 0x2#4 then !decide (a ≤ b)
  else if nibbleAt w 36 = 0xE#4 then !decide (a = b)
  else if nibbleAt w 36 = 0xF#4 then !decide (a ≠ b)
  else false

def source (M : Store) (key index : Nibble) : Word :=
  if key = 0 then M.reg index
  else if key = 8 then index.setWidth 64
  else M (M.reg key) (M.reg index)

/-- The place is named by the store as it was before the write. -/
def deliver (M : Store) (key index : Nibble) (w : Word) : Store :=
  if key = 0 then M.put 0#64 (index.setWidth 64) w
  else M.put (M.reg key) (M.reg index) w

def perform (M : Store) (w : Word) : Except FaultKind Store :=
  if passesOver M w then .ok M
  else if opcode w ≠ 0xFF ∧ opcode w ≠ 0xFE then .error (.illegalOpcode (opcode w))
  else if nibbleAt w 28 = 8 then .error (.illegalWrite ((nibbleAt w 24).setWidth 8))
  else
    let a := source M (nibbleAt w 20) (nibbleAt w 16)
    let b := source M (nibbleAt w 12) (nibbleAt w 8)
    .ok (deliver M (nibbleAt w 28) (nibbleAt w 24) (if opcode w = 0xFF then a + b else a - b))

structure Configuration where
  store : Store
  state : State
  leash : Nat
  steps : Nat

inductive Signal where
  | running
  | halted
  | faulted (f : Fault)

/-- How a machine with this policy words a signal. -/
def Signal.answer (policy : FaultPolicy) : Signal → Answer State
  | running => .value .running
  | halted => .value .halted
  | faulted f =>
      match policy with
      | .report => .fault f
      | .abort => .abort f.text

/-- `PX` is register 8 and `PK` register 9; the word is fetched from the store in which `PX` has
already moved on. -/
def tick (c : Configuration) : Configuration × Signal :=
  if c.state = .halted then (c, .halted)
  else
    let k := c.store.reg 9
    let x := c.store.reg 8
    let M := c.store.put 0#64 8#64 (x + 1)
    let w := M k x
    if w = 0#64 then ({ c with store := M, state := .halted }, .halted)
    else if c.leash = 0 then
      ({ c with store := M, state := .halted }, .faulted ⟨.ranTooLong, w, ⟨k, x⟩, M.registers⟩)
    else
      match perform M w with
      | .ok N => ({ c with store := N, leash := c.leash - 1, steps := c.steps + 1 }, .running)
      | .error kind =>
          ({ store := M, state := .halted, leash := c.leash - 1, steps := c.steps + 1 },
            .faulted ⟨kind, w, ⟨k, x⟩, M.registers⟩)

def after : Nat → Configuration → Configuration
  | 0, c => c
  | n + 1, c => after n (tick c).1

/-- The signals of so many ticks, the first one first. -/
def signals : Nat → Configuration → List Signal
  | 0, _ => []
  | n + 1, c => (tick c).2 :: signals n (tick c).1

end KeyIndexMachine.Reference

namespace KeyIndexMachine

/-- What is read at each key and index. -/
def AddressSpace.contents (s : AddressSpace) : Reference.Store := fun k x => s.read ⟨k, x⟩

def Machine.configuration (m : Machine) : Reference.Configuration :=
  ⟨m.space.contents, m.state, m.leash, m.steps⟩

/-- The answers of so many steps in a row. -/
def Machine.answers (m : Machine) : Nat → List (Answer State)
  | 0 => []
  | n + 1 => m.step.answer :: m.step.machine.answers n

end KeyIndexMachine

namespace KeyIndexMachine.Reference

theorem umod_sixteen_eq_iff (x y : Word) :
    x % 16#64 = y % 16#64 ↔ x.setWidth 4 = y.setWidth 4 := by
  constructor
  · intro h
    have hn := congrArg BitVec.toNat h
    simp only [BitVec.toNat_umod, BitVec.toNat_ofNat] at hn
    apply BitVec.eq_of_toNat_eq
    simpa only [BitVec.toNat_setWidth] using hn
  · intro h
    have hn := congrArg BitVec.toNat h
    simp only [BitVec.toNat_setWidth] at hn
    apply BitVec.eq_of_toNat_eq
    simpa only [BitVec.toNat_umod, BitVec.toNat_ofNat] using hn

theorem contents_store (s : AddressSpace) (a : Address) (w : Word) :
    (s.store a w).contents = s.contents.put a.key a.index w := by
  funext k x
  have hp : a.place = Address.place ⟨k, x⟩ ↔
      k = a.key ∧ (x = a.index ∨ (a.key = 0#64 ∧ x % 16#64 = a.index % 16#64)) := by
    rw [Address.place_eq_place_iff, umod_sixteen_eq_iff]
    obtain ⟨l, y⟩ := a
    simp only [Address.mk.injEq]
    constructor
    · rintro (⟨rfl, rfl⟩ | ⟨rfl, rfl, h⟩)
      · exact ⟨rfl, .inl rfl⟩
      · exact ⟨rfl, .inr ⟨rfl, h.symm⟩⟩
    · rintro ⟨rfl, rfl | ⟨rfl, h⟩⟩
      · exact .inl ⟨rfl, rfl⟩
      · exact .inr ⟨rfl, rfl, h.symm⟩
  simp only [AddressSpace.contents, Store.put, AddressSpace.read_store, hp]

theorem contents_setRegister (s : AddressSpace) (r : Register) (w : Word) :
    (s.setRegister r w).contents = s.contents.put 0#64 r.word w := by
  rw [s.setRegister_eq_store r w, contents_store]
  rfl

theorem reg_contents (s : AddressSpace) (n : Nibble) :
    s.contents.reg n = s.register (Register.ofNibble n) := by
  rw [s.register_eq_read]
  simp [Store.reg, AddressSpace.contents, Address.ofRegister, Register.word]

theorem registers_contents (s : AddressSpace) : s.contents.registers = s.registers := by
  apply RegisterFile.ext
  intro r
  have hr : s.registers.get r = s.contents.reg r.nibble := by
    rw [reg_contents, Register.ofNibble_nibble]
    rfl
  have hw : BitVec.ofNat 64 r.number.val = r.nibble.setWidth 64 := by cases r <;> rfl
  rw [hr]
  simp [Store.registers, RegisterFile.get, Store.reg, hw]

theorem nibble_eq_nibbleAt {f : Field} (hf : f ≠ .opcode) (w : Word) :
    f.nibble w = nibbleAt w f.offset := by
  have hw : f.width = 4 := by cases f <;> first | rfl | exact absurd rfl hf
  apply BitVec.eq_of_getLsbD_eq
  intro i hi
  simp [Field.nibble, nibbleAt, Field.getLsbD_get, hw, hi]

theorem opcode_ofWord (w : Word) : (Instruction.ofWord w).opcode = opcode w := by
  apply BitVec.eq_of_getLsbD_eq
  intro i hi
  simp [Instruction.ofWord, opcode, Field.getLsbD_get, Field.width, Field.offset, hi]

theorem nibble_reserved (k : Fin 11) :
    (Comparison.reserved k).nibble ≠ 0x1#4 ∧ (Comparison.reserved k).nibble ≠ 0x2#4 ∧
      (Comparison.reserved k).nibble ≠ 0xE#4 ∧ (Comparison.reserved k).nibble ≠ 0xF#4 := by
  revert k
  decide

/-- The codes that ask nothing and the reserved ones fall through to the last branch together. -/
theorem not_holds_ofNibble (n : Nibble) (a b : Word) :
    ((Comparison.ofNibble n != .always) && !(Comparison.ofNibble n).holds a b) =
      (if n = 0x1#4 then !decide (a.toInt < b.toInt)
      else if n = 0x2#4 then !decide (a.toInt ≤ b.toInt)
      else if n = 0xE#4 then !decide (a.toInt = b.toInt)
      else if n = 0xF#4 then !decide (a.toInt ≠ b.toInt)
      else false) := by
  obtain ⟨c, rfl⟩ : ∃ c : Comparison, n = c.nibble := ⟨_, (Comparison.nibble_ofNibble n).symm⟩
  rw [Comparison.ofNibble_nibble]
  have hb : (a == b) = decide (a.toInt = b.toInt) := by simp only [BitVec.toInt_inj]; rfl
  cases c with
  | always => rfl
  | less =>
      rw [show Comparison.less.nibble = 0x1#4 from rfl, if_pos rfl]
      rfl
  | lessEqual =>
      rw [show Comparison.lessEqual.nibble = 0x2#4 from rfl, if_neg (by decide), if_pos rfl]
      rfl
  | equal =>
      rw [show Comparison.equal.nibble = 0xE#4 from rfl]
      simp [Comparison.holds, hb]
  | notEqual =>
      rw [show Comparison.notEqual.nibble = 0xF#4 from rfl]
      simp [Comparison.holds, hb, bne]
  | reserved k =>
      obtain ⟨h₁, h₂, h₃, h₄⟩ := nibble_reserved k
      simp [h₁, h₂, h₃, h₄, Comparison.holds]

theorem passesOver_contents (s : AddressSpace) (w : Word) :
    passesOver s.contents w = !(Instruction.ofWord w).proceeds s.registers := by
  have h := not_holds_ofNibble (nibbleAt w 36)
    (s.register (Register.ofNibble (nibbleAt w 40)))
    (s.register (Register.ofNibble (nibbleAt w 32)))
  have ha : Field.compareA.nibble w = nibbleAt w 40 := nibble_eq_nibbleAt (by decide) w
  have ho : Field.compareOp.nibble w = nibbleAt w 36 := nibble_eq_nibbleAt (by decide) w
  have hb : Field.compareB.nibble w = nibbleAt w 32 := nibble_eq_nibbleAt (by decide) w
  simp only [passesOver, reg_contents]
  rw [← h]
  simp only [Instruction.proceeds, Instruction.isConditional, Condition.holds, Instruction.ofWord,
    ha, ho, hb, Bool.not_or, Bool.not_not]
  rfl

theorem source_contents (s : AddressSpace) (key index : Nibble) :
    source s.contents key index = s.valueOf (Operand.ofNibbles key index) := by
  unfold source Operand.ofNibbles
  split
  · exact reg_contents s index
  · split
    · simp only [AddressSpace.valueOf]
      revert index
      decide
    · simp only [reg_contents]
      rfl

theorem source_sourceA (s : AddressSpace) (w : Word) :
    source s.contents (nibbleAt w 20) (nibbleAt w 16) =
      s.valueOf (Instruction.ofWord w).sourceA := by
  have hk : Field.aKey.nibble w = nibbleAt w 20 := nibble_eq_nibbleAt (by decide) w
  have hx : Field.aIndex.nibble w = nibbleAt w 16 := nibble_eq_nibbleAt (by decide) w
  rw [source_contents, ← hk, ← hx]
  rfl

theorem source_sourceB (s : AddressSpace) (w : Word) :
    source s.contents (nibbleAt w 12) (nibbleAt w 8) =
      s.valueOf (Instruction.ofWord w).sourceB := by
  have hk : Field.bKey.nibble w = nibbleAt w 12 := nibble_eq_nibbleAt (by decide) w
  have hx : Field.bIndex.nibble w = nibbleAt w 8 := nibble_eq_nibbleAt (by decide) w
  rw [source_contents, ← hk, ← hx]
  rfl

theorem destination_ofWord (w : Word) :
    (Instruction.ofWord w).destination = Operand.ofNibbles (nibbleAt w 28) (nibbleAt w 24) := by
  have hk : Field.dKey.nibble w = nibbleAt w 28 := nibble_eq_nibbleAt (by decide) w
  have hx : Field.dIndex.nibble w = nibbleAt w 24 := nibble_eq_nibbleAt (by decide) w
  rw [← hk, ← hx]
  rfl

theorem operation_refused {w : Word} (h : (Instruction.ofWord w).operation? = none) :
    opcode w ≠ 0xFF ∧ opcode w ≠ 0xFE := by
  rw [Instruction.operation?, opcode_ofWord, Operation.ofOpcode?] at h
  split at h
  · cases h
  · split at h
    · cases h
    · exact ⟨‹_›, ‹_›⟩

theorem operation_applied {w : Word} {o : Operation}
    (h : (Instruction.ofWord w).operation? = some o) (a b : Word) :
    ¬ (opcode w ≠ 0xFF ∧ opcode w ≠ 0xFE) ∧
      (if opcode w = 0xFF then a + b else a - b) = o.apply a b := by
  rw [Instruction.operation?, opcode_ofWord, Operation.ofOpcode?_eq_some_iff] at h
  rw [← h]
  cases o <;> simp [Operation.opcode, Operation.apply]

/-- What an instruction leaves in the store, if it leaves anything. -/
def result (s : AddressSpace) : Outcome → Except FaultKind Store
  | .skipped => .ok s.contents
  | .done t => .ok t.contents
  | .refused kind => .error kind

/-- An instruction that means something and goes ahead, by the key of its destination. -/
theorem result_execute {s : AddressSpace} {w : Word} {o : Operation}
    (hp : (Instruction.ofWord w).proceeds s.registers)
    (ho : (Instruction.ofWord w).operation? = some o) :
    result s ((Instruction.ofWord w).execute s) =
      if nibbleAt w 28 = 8 then .error (.illegalWrite ((nibbleAt w 24).setWidth 8))
      else .ok (deliver s.contents (nibbleAt w 28) (nibbleAt w 24)
        (o.apply (s.valueOf (Instruction.ofWord w).sourceA)
          (s.valueOf (Instruction.ofWord w).sourceB))) := by
  simp only [Instruction.execute, hp, if_true, ho, destination_ofWord, deliver,
    Operand.ofNibbles]
  by_cases h₀ : nibbleAt w 28 = 0
  · simp only [h₀, if_true, result, contents_setRegister, Register.word, Register.nibble_ofNibble]
    rfl
  · by_cases h₈ : nibbleAt w 28 = 8
    · simp only [h₈, if_true]
      rfl
    · simp only [h₀, h₈, if_false, result, contents_store, reg_contents]

theorem perform_contents (s : AddressSpace) (w : Word) :
    perform s.contents w = result s ((Instruction.ofWord w).execute s) := by
  unfold perform
  rw [passesOver_contents]
  by_cases hp : (Instruction.ofWord w).proceeds s.registers
  · cases ho : (Instruction.ofWord w).operation? with
    | none =>
        rw [if_neg (by simp [hp]), if_pos (operation_refused ho)]
        simp [Instruction.execute, hp, ho, result, opcode_ofWord]
    | some o =>
        obtain ⟨hc, hv⟩ := operation_applied ho
          (s.valueOf (Instruction.ofWord w).sourceA) (s.valueOf (Instruction.ofWord w).sourceB)
        rw [if_neg (by simp [hp]), if_neg hc, result_execute hp ho]
        simp only [source_sourceA, source_sourceB, hv]
  · simp [Instruction.execute, hp, result]

open Machine

theorem contents_fetch (s : AddressSpace) :
    s.fetch.space.contents = s.contents.put 0#64 8#64 (s.contents.reg 8 + 1) := by
  rw [reg_contents]
  exact contents_setRegister s .px _

theorem address_fetch (s : AddressSpace) :
    s.fetch.address = ⟨s.contents.reg 9, s.contents.reg 8⟩ := by
  rw [reg_contents, reg_contents]
  rfl

theorem word_fetch (s : AddressSpace) :
    s.fetch.word = s.fetch.space.contents (s.contents.reg 9) (s.contents.reg 8) := by
  rw [reg_contents, reg_contents]
  rfl

/-- A tick of a running machine in terms of its fetch and of what the fetched instruction does. -/
theorem tick_of_running {m : Machine} (h : m.state = .running) :
    tick m.configuration =
      if m.space.fetch.word = 0#64 then
        (Machine.configuration { m.advanced with state := .halted }, .halted)
      else if m.leash = 0 then
        (Machine.configuration { m.advanced with state := .halted },
          .faulted (m.report .ranTooLong))
      else
        match result m.space.fetch.space m.space.fetch.outcome with
        | .ok N => ({ m.paid.configuration with store := N }, .running)
        | .error kind =>
            (Machine.configuration { m.paid with state := .halted }, .faulted (m.report kind)) := by
  have hn : ¬ m.configuration.state = .halted := by simp [Machine.configuration, h]
  have hp : result m.space.fetch.space m.space.fetch.outcome =
      perform m.space.fetch.space.contents m.space.fetch.word := (perform_contents _ _).symm
  rw [tick, if_neg hn, hp]
  simp only [Machine.configuration, Machine.advanced, Machine.paid, Machine.report,
    ← registers_contents, address_fetch, word_fetch, contents_fetch]
  rfl

/-- One step is one tick: the cases of a step are the branches of `tick`. -/
theorem tick_configuration (m : Machine) :
    ∃ signal, tick m.configuration = (m.step.machine.configuration, signal) ∧
      m.step.answer = signal.answer m.config.policy := by
  cases m.stepCase with
  | stayed hs =>
      refine ⟨.halted, ?_, ?_⟩
      · rw [step_of_halted hs, tick]
        exact if_pos hs
      · rw [step_of_halted hs]
        rfl
  | ended hs hw =>
      refine ⟨.halted, ?_, ?_⟩
      · rw [tick_of_running hs, if_pos hw, step_of_ended hs hw]
      · rw [step_of_ended hs hw]
        rfl
  | exhausted hs hw hl =>
      refine ⟨.faulted (m.report .ranTooLong), ?_, ?_⟩
      · rw [tick_of_running hs, if_neg hw, if_pos hl, step_of_exhausted hs hw hl]
        rfl
      · rw [step_of_exhausted hs hw hl]
        rfl
  | skipped hs hw hl ho =>
      refine ⟨.running, ?_, ?_⟩
      · rw [tick_of_running hs, if_neg hw, if_neg hl, ho, step_of_skipped hs hw hl ho]
        rfl
      · rw [step_of_skipped hs hw hl ho]
        rfl
  | done s hs hw hl ho =>
      refine ⟨.running, ?_, ?_⟩
      · rw [tick_of_running hs, if_neg hw, if_neg hl, ho, step_of_done hs hw hl ho]
        rfl
      · rw [step_of_done hs hw hl ho]
        rfl
  | refused kind hs hw hl ho =>
      refine ⟨.faulted (m.report kind), ?_, ?_⟩
      · rw [tick_of_running hs, if_neg hw, if_neg hl, ho, step_of_refused hs hw hl ho]
        rfl
      · rw [step_of_refused hs hw hl ho]
        rfl

end KeyIndexMachine.Reference

namespace KeyIndexMachine.Machine

open Reference

/-- For every machine and any number of steps, the machine and the reference machine that starts
from what can be read agree on all that can be read, on state, leash and step count, and on the
answer of each step. A halted machine is covered too: both sides stay where they are. -/
theorem afterSteps_refines (m : Machine) (n : Nat) :
    (m.afterSteps n).configuration = after n m.configuration ∧
      m.answers n = (signals n m.configuration).map (Signal.answer m.config.policy) := by
  induction n generalizing m with
  | zero => exact ⟨rfl, rfl⟩
  | succ n ih =>
      obtain ⟨signal, ht, ha⟩ := tick_configuration m
      obtain ⟨hc, hs⟩ := ih m.step.machine
      have hp : m.step.machine.config = m.config := m.config_step
      refine ⟨?_, ?_⟩
      · rw [afterSteps_succ, hc, after, ht]
      · rw [answers, hs, ha, hp, signals, ht]
        rfl

end KeyIndexMachine.Machine
