import KeyIndexMachine.AddressSpace
import KeyIndexMachine.Fault

/-!
# Executing an instruction

The effect of one instruction on an address space, apart from where it was fetched. An instruction
whose condition fails is not examined any further. One that is refused has changed nothing. Both
sources are read before the destination is written.
-/
namespace KeyIndexMachine

namespace AddressSpace

/-- Where an operand lives. A constant lives nowhere. -/
def addressOf? (s : AddressSpace) : Operand → Option Address
  | .register r => some (Address.ofRegister r)
  | .constant _ => none
  | .indirect k x => some ⟨s.register k, s.register x⟩

def valueOf (s : AddressSpace) : Operand → Word
  | .register r => s.register r
  | .constant v => v.setWidth 64
  | .indirect k x => s.read ⟨s.register k, s.register x⟩

/-- The address of an operand, if it turns out to lie in memory. -/
def memoryOf? (s : AddressSpace) (o : Operand) : Option Address :=
  (s.addressOf? o).filter (!·.isRegister)

theorem valueOf_of_addressOf? {s : AddressSpace} {o : Operand} {a : Address}
    (h : s.addressOf? o = some a) : s.valueOf o = s.read a := by
  cases o with
  | register r =>
    cases h
    exact s.register_eq_read r
  | constant v => cases h
  | indirect k x =>
    cases h
    rfl

end AddressSpace

inductive Outcome where
  | skipped
  | done (s : AddressSpace)
  | refused (kind : FaultKind)

namespace Instruction

def execute (i : Instruction) (s : AddressSpace) : Outcome :=
  if i.proceeds s.registers then
    match i.operation? with
    | none => .refused (.illegalOpcode i.opcode)
    | some o =>
        let result := o.apply (s.valueOf i.sourceA) (s.valueOf i.sourceB)
        match i.destination with
        | .register r => .done (s.setRegister r result)
        | .constant v => .refused (.illegalWrite v)
        | .indirect k x => .done (s.store ⟨s.register k, s.register x⟩ result)
  else .skipped

end Instruction

end KeyIndexMachine
