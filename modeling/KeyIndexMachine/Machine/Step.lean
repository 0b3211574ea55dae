import KeyIndexMachine.Machine.Basic

/-!
# One step of a machine

A step first advances `PX` and then fetches, so an instruction that writes `PX` jumps, and a
program that runs out of the registers sees the advanced `PX`. Fetching a zero halts and costs
nothing. Any other word costs one unit of leash whether or not its condition holds; with none left
the machine faults instead. A halted machine stays as it is.
-/
namespace KeyIndexMachine

/-- An instruction word, where it came from, and the space after `PX` moved past it. -/
structure Fetch where
  address : Address
  space : AddressSpace
  word : Word

def AddressSpace.fetch (s : AddressSpace) : Fetch :=
  let address : Address := ⟨s.register .pk, s.register .px⟩
  let moved := s.setRegister .px (address.index + 1)
  ⟨address, moved, moved.read address⟩

namespace Machine

/-- The part of a trace that is reported. -/
def traced (m : Machine) (events : List Event) : List Event :=
  if m.config.trace then events else []

/-- Halts the machine; the fault shows the registers as they are left. -/
def stop {α : Type} (m : Machine) (kind : FaultKind) (f : Fetch) (past : List Event) : Turn α :=
  let fault : Fault := ⟨kind, f.word, f.address, m.space.registers⟩
  { machine := { m with state := .halted }
    log := past ++ [.faulted fault]
    answer := match m.config.policy with
      | .report => .fault fault
      | .abort => .abort fault.text }

def step (m : Machine) : Turn State :=
  match m.state with
  | .halted => ⟨m, [], .value .halted⟩
  | .running =>
      let f := m.space.fetch
      let moved := { m with space := f.space }
      if f.word = 0#64 then
        ⟨{ moved with state := .halted }, m.traced [.ended f.address.index], .value .halted⟩
      else match m.leash with
        | 0 => moved.stop .ranTooLong f []
        | leash + 1 =>
            let paid := { moved with leash := leash, steps := m.steps + 1 }
            let i := Instruction.ofWord f.word
            let fetched := Event.fetched f.address.index f.word
            match i.execute f.space with
            | .skipped =>
                ⟨paid,
                  m.traced [fetched, .skipped i.condition, .settled f.space.registers],
                  .value .running⟩
            | .done s =>
                ⟨{ paid with space := s },
                  m.traced (fetched :: i.accesses f.space ++ [.settled s.registers]),
                  .value .running⟩
            | .refused kind => paid.stop kind f (m.traced [fetched])

theorem step_of_halted {m : Machine} (h : m.state = .halted) :
    m.step = ⟨m, [], .value .halted⟩ := by
  simp [step, h]

/-- Only a step that pays leaves the machine running. -/
theorem leash_step_of_running {m : Machine} (h : m.step.answer = .value .running) :
    m.leash = m.step.machine.leash + 1 := by
  revert h
  unfold step
  split
  · simp
  · dsimp only
    split
    · simp
    · split
      · cases hp : m.config.policy <;> simp [stop, hp]
      · rename_i hl
        split
        · simp [hl]
        · simp [hl]
        · cases hp : m.config.policy <;> simp [stop, hp]

end Machine

end KeyIndexMachine
