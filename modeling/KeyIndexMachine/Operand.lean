import KeyIndexMachine.Register

/-!
# Operands

An operand is written as a key nibble and an index nibble. Key 0 makes the index a register, key 8
makes it a number, and any other key makes both of them registers that hold the key and the index
of the operand. Operands that no pair of nibbles denotes can be built all the same: a constant
above 15, or an indirect operand whose key register is one of the two whose numbers are taken. Such
an operand has a text of its own, but its nibbles denote another operand.
-/
namespace KeyIndexMachine

inductive Operand where
  | register (r : Register)
  | constant (value : Byte)
  | indirect (key index : Register)
  deriving DecidableEq, Repr

namespace Operand

def ofNibbles (key index : Nibble) : Operand :=
  if key = 0 then register (Register.ofNibble index)
  else if key = 8 then constant (index.setWidth 8)
  else indirect (Register.ofNibble key) (Register.ofNibble index)

def key : Operand → Nibble
  | register _ => 0
  | constant _ => 8
  | indirect k _ => k.nibble

/-- Only the low four bits of a constant have a place in an instruction. -/
def index : Operand → Nibble
  | register r => r.nibble
  | constant value => value.setWidth 4
  | indirect _ x => x.nibble

def isConstant : Operand → Bool
  | constant _ => true
  | _ => false

def text : Operand → String
  | register r => r.name
  | constant value => "$" ++ hexNat value.toNat
  | indirect k x => "hashtable[" ++ k.name ++ "/" ++ x.name ++ "]"

@[simp] theorem key_ofNibbles (k x : Nibble) : (ofNibbles k x).key = k := by
  unfold ofNibbles
  split
  · simp [key, *]
  · split <;> simp [key, *]

@[simp] theorem index_ofNibbles (k x : Nibble) : (ofNibbles k x).index = x := by
  unfold ofNibbles
  split
  · simp [index]
  · split <;> simp [index]

end Operand

end KeyIndexMachine
