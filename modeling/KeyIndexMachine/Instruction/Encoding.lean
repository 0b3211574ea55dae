import KeyIndexMachine.Instruction
import KeyIndexMachine.Word.Field

/-!
# Instruction words

Every word denotes an instruction: its opcode may mean nothing and its reserved bits are ignored.
Packing fills the ten fields of an otherwise zero word, so the reserved bits of a packed word are
clear.
-/
namespace KeyIndexMachine

namespace Field

/-- The contents of a field, cut to a nibble. -/
def nibble (f : Field) (w : Word) : Nibble := (f.get w).setWidth 4

end Field

namespace Instruction

def ofWord (w : Word) : Instruction where
  condition := {
    a := Register.ofNibble (Field.compareA.nibble w)
    comparison := Comparison.ofNibble (Field.compareOp.nibble w)
    b := Register.ofNibble (Field.compareB.nibble w) }
  opcode := (Field.opcode.get w).setWidth 8
  destination := Operand.ofNibbles (Field.dKey.nibble w) (Field.dIndex.nibble w)
  sourceA := Operand.ofNibbles (Field.aKey.nibble w) (Field.aIndex.nibble w)
  sourceB := Operand.ofNibbles (Field.bKey.nibble w) (Field.bIndex.nibble w)

/-- What each field of the packed instruction holds. -/
def fieldValue (i : Instruction) : Field → Word
  | .opcode => i.opcode.setWidth 64
  | .bIndex => i.sourceB.index.setWidth 64
  | .bKey => i.sourceB.key.setWidth 64
  | .aIndex => i.sourceA.index.setWidth 64
  | .aKey => i.sourceA.key.setWidth 64
  | .dIndex => i.destination.index.setWidth 64
  | .dKey => i.destination.key.setWidth 64
  | .compareB => i.condition.b.nibble.setWidth 64
  | .compareOp => i.condition.comparison.nibble.setWidth 64
  | .compareA => i.condition.a.nibble.setWidth 64

def toWord (i : Instruction) : Word :=
  Field.all.foldl (fun w f => f.set w (i.fieldValue f)) 0

end Instruction

namespace Word

/-- The assembly text of the instruction that a word denotes. -/
def text (w : Word) : String := (Instruction.ofWord w).text

end Word

end KeyIndexMachine
