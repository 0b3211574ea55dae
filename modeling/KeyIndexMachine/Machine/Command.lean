import KeyIndexMachine.Machine.Run

/-!
# Commands

Everything that can be done to a machine, as data, so that a history of operations is a list.
-/
namespace KeyIndexMachine

inductive Command where
  | step
  | run
  | reload (code : List Word)
  | setTrace (on : Bool)
  /-- A change made to the address space from outside. -/
  | edit (e : Edit)

/-- What a command that succeeds answers. -/
inductive Reply where
  | none
  | state (s : State)
  | result (w : Word)
  deriving DecidableEq, Repr

namespace Machine

def edit (m : Machine) (e : Edit) : Machine := { m with space := m.space.edit e }

def perform (m : Machine) : Command → Turn Reply
  | .step => m.step.map .state
  | .run => m.run.map .result
  | .reload code => ⟨m.reload code, [], .value .none⟩
  | .setTrace on => ⟨m.setTrace on, [], .value .none⟩
  | .edit e => ⟨m.edit e, [], .value .none⟩

/-- The machine after a history of commands, the first one first. A fault or an abort in one of
them does not keep the next from being performed. -/
def performAll (m : Machine) (history : List Command) : Machine :=
  history.foldl (fun m c => (m.perform c).machine) m

@[simp] theorem performAll_cons (m : Machine) (c : Command) (history : List Command) :
    m.performAll (c :: history) = (m.perform c).machine.performAll history := rfl

end Machine

end KeyIndexMachine
