import KeyIndexMachine.Address
import KeyIndexMachine.Instruction.Encoding

/-!
# Faults

What stops a machine other than the end of its program. A fault keeps the word it arose from, the
address that word was fetched from, and the registers at that moment; its text shows all of them.
-/
namespace KeyIndexMachine

inductive FaultKind where
  /-- The opcode is neither of the two that mean something. -/
  | illegalOpcode (opcode : Byte)
  /-- The destination is a constant. -/
  | illegalWrite (value : Byte)
  | ranTooLong
  deriving DecidableEq, Repr

structure Fault where
  kind : FaultKind
  word : Word
  address : Address
  registers : RegisterFile
  deriving DecidableEq, Repr

def FaultKind.text : FaultKind → String
  | illegalOpcode b => "not an instruction (opcode 0x" ++ hexNatPadded 2 b.toNat ++ ")"
  | illegalWrite v => "write to constant $" ++ hexNat v.toNat
  | ranTooLong => "ran too long"

def Fault.text (f : Fault) : String :=
  "FATAL> " ++ f.kind.text ++ " at " ++ f.address.text ++ ": 0x" ++ f.word.hex ++
    " `" ++ f.word.text ++ "`\n" ++ f.registers.text

end KeyIndexMachine
