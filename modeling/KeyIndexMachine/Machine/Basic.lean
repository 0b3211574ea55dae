import KeyIndexMachine.AddressSpace.Edit
import KeyIndexMachine.Machine.Event

/-!
# Machines

A machine holds an address space and a leash, the number of instructions it may still take. Every
operation on it is a turn: the machine afterwards, what it reported, and how the operation ended.
A new machine and a reloaded one have the whole leash of their configuration and no steps behind
them.
-/
namespace KeyIndexMachine

inductive State where
  | running
  | halted
  deriving DecidableEq, Repr

def State.text : State → String
  | running => "Running"
  | halted => "Halted"

/-- What happens on a fault once the machine is halted. -/
inductive FaultPolicy where
  | report
  | abort
  deriving DecidableEq, Repr

structure Config where
  leash : Nat := 100
  /-- Whether the trace is reported. -/
  trace : Bool := false
  policy : FaultPolicy := .report
  /-- The area that programs are loaded into. -/
  programKey : Word := 0xC0DE#64
  deriving DecidableEq, Repr

structure Machine where
  space : AddressSpace
  config : Config
  state : State
  leash : Nat
  /-- Instructions taken, the skipped ones among them. -/
  steps : Nat
  deriving DecidableEq

/-- How an operation on a machine ends. An abort carries the text of the fault. -/
inductive Answer (α : Type) where
  | value (a : α)
  | fault (f : Fault)
  | abort (message : String)
  deriving DecidableEq

/-- A machine after an operation, what it reported meanwhile, and the answer. -/
structure Turn (α : Type) where
  machine : Machine
  log : List Event
  answer : Answer α
  deriving DecidableEq

def Answer.map {α β : Type} (g : α → β) : Answer α → Answer β
  | value a => .value (g a)
  | fault f => .fault f
  | abort message => .abort message

def Turn.map {α β : Type} (g : α → β) (t : Turn α) : Turn β :=
  ⟨t.machine, t.log, t.answer.map g⟩

namespace Machine

/-- A machine that is about to run whatever `PK` and `PX` point at. -/
def ofSpace (s : AddressSpace) (c : Config) : Machine := ⟨s, c, .running, c.leash, 0⟩

/-- A machine with a program loaded and nothing else. -/
def ofProgram (code : List Word) (c : Config) : Machine :=
  ofSpace (AddressSpace.empty.load code c.programKey) c

/-- Forgets registers and memory, loads a program, and gives the leash back. -/
def reload (m : Machine) (code : List Word) : Machine :=
  { m with
    space := (m.space.edit .clear).load code m.config.programKey
    state := .running
    leash := m.config.leash
    steps := 0 }

def setTrace (m : Machine) (on : Bool) : Machine :=
  { m with config := { m.config with trace := on } }

end Machine

end KeyIndexMachine
