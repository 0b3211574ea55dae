import KeyIndexMachine.AddressSpace.Listing
import KeyIndexMachine.Execution

/-!
# Events

What a machine reports while it works. Faults are always reported. The other events are its trace,
which is reported on request and says enough to follow every access to memory.
-/
namespace KeyIndexMachine

inductive Event where
  /-- An instruction was fetched and paid for. -/
  | fetched (index word : Word)
  /-- The word that ends a program was fetched. -/
  | ended (index : Word)
  | skipped (condition : Condition)
  | reading (a : Address)
  | writing (a : Address)
  /-- The registers after an instruction. -/
  | settled (registers : RegisterFile)
  | faulted (fault : Fault)
  deriving DecidableEq, Repr

namespace Event

def isTrace : Event → Bool
  | faulted _ => false
  | _ => true

def message : Event → String
  | fetched index word => AddressSpace.listingEntry index word
  | ended index => index.hexColumn ++ ": end of program"
  | skipped c => "Skipped: " ++ c.text ++ " is false"
  | reading a => "Reading hashtable at " ++ a.text
  | writing a => "Writing hashtable at " ++ a.text
  | settled f => f.text
  | faulted f => f.text

end Event

namespace Instruction

/-- The accesses to memory of an instruction that is carried out, in their order. -/
def accesses (i : Instruction) (s : AddressSpace) : List Event :=
  ((s.memoryOf? i.sourceA).map Event.reading).toList ++
    ((s.memoryOf? i.sourceB).map Event.reading).toList ++
    ((s.memoryOf? i.destination).map Event.writing).toList

end Instruction

end KeyIndexMachine
