import KeyIndexMachine.Machine.Command

/-!
# Requests

A client of a machine gives commands, and between two commands it may borrow the address space and
do any work on it: look at it, change it, or both. An edit is such a work that brings nothing back,
and a look is one that changes nothing.
-/
namespace KeyIndexMachine

inductive Request (ρ : Type) where
  | command (c : Command)
  /-- What the work makes of the space, and what it brings back. -/
  | visit (work : AddressSpace → AddressSpace × ρ)

namespace Machine

variable {ρ : Type}

def serve (m : Machine) : Request ρ → Turn (Reply ⊕ ρ)
  | .command c => (m.perform c).map .inl
  | .visit work => ⟨{ m with space := (work m.space).1 }, [], .value (.inr (work m.space).2)⟩

/-- The machine after a history of requests, the first one first. As with commands, a fault or an
abort in one of them does not keep the next from being served. -/
def serveAll (m : Machine) (history : List (Request ρ)) : Machine :=
  history.foldl (fun m r => (m.serve r).machine) m

@[simp] theorem serveAll_cons (m : Machine) (r : Request ρ) (history : List (Request ρ)) :
    m.serveAll (r :: history) = (m.serve r).machine.serveAll history := rfl

end Machine

end KeyIndexMachine
