import KeyIndexMachine.Comparison
import KeyIndexMachine.Operand
import KeyIndexMachine.RegisterFile

/-!
# Instructions

An instruction sends the sum or the difference of two sources to a destination, under a condition
on two registers. Its opcode is kept as a byte, so that an instruction whose opcode means nothing
can still be looked at and printed. An `add` whose first source is register `$0` moves its second
source, and is written `mov`.
-/
namespace KeyIndexMachine

inductive Operation where
  | add
  | sub
  deriving DecidableEq, Repr

namespace Operation

def opcode : Operation → Byte
  | add => 0xFF
  | sub => 0xFE

def name : Operation → String
  | add => "add"
  | sub => "sub"

def ofOpcode? (b : Byte) : Option Operation :=
  if b = 0xFF then some add else if b = 0xFE then some sub else none

def ofName? (text : String) : Option Operation :=
  if text = "add" then some add else if text = "sub" then some sub else none

/-- Arithmetic modulo 2 to the 64th, so that no operands are out of range. -/
def apply : Operation → Word → Word → Word
  | add, a, b => a + b
  | sub, a, b => a - b

@[simp] theorem ofOpcode?_opcode (o : Operation) : ofOpcode? o.opcode = some o := by
  cases o <;> rfl

theorem ofOpcode?_eq_some_iff {b : Byte} {o : Operation} :
    ofOpcode? b = some o ↔ o.opcode = b := by
  constructor
  · unfold ofOpcode?
    split
    · rintro ⟨⟩
      simp [opcode, *]
    · split
      · rintro ⟨⟩
        simp [opcode, *]
      · simp
  · rintro rfl
    simp

theorem ofName?_eq_some_iff {text : String} {o : Operation} :
    ofName? text = some o ↔ o.name = text := by
  constructor
  · unfold ofName?
    split
    · rintro ⟨⟩
      simp [name, *]
    · split
      · rintro ⟨⟩
        simp [name, *]
      · simp
  · rintro rfl
    cases o <;> decide

end Operation

structure Condition where
  a : Register
  comparison : Comparison
  b : Register
  deriving DecidableEq, Repr

namespace Condition

/-- No condition: the two registers are not looked at. -/
def always : Condition := ⟨.zero, .always, .zero⟩

def holds (c : Condition) (f : RegisterFile) : Bool :=
  c.comparison.holds (f.get c.a) (f.get c.b)

def text (c : Condition) : String :=
  "if(" ++ c.a.name ++ c.comparison.symbol ++ c.b.name ++ ")"

end Condition

structure Instruction where
  condition : Condition
  opcode : Byte
  destination : Operand
  sourceA : Operand
  sourceB : Operand
  deriving DecidableEq, Repr

namespace Instruction

/-- An unconditional instruction. -/
def unconditional (o : Operation) (destination sourceA sourceB : Operand) : Instruction :=
  ⟨Condition.always, o.opcode, destination, sourceA, sourceB⟩

def mov (destination source : Operand) : Instruction :=
  unconditional .add destination (.register .zero) source

def when (i : Instruction) (c : Condition) : Instruction := { i with condition := c }

def operation? (i : Instruction) : Option Operation := Operation.ofOpcode? i.opcode

def isConditional (i : Instruction) : Bool := i.condition.comparison != .always

def isMov (i : Instruction) : Bool :=
  i.operation? == some .add && i.sourceA == .register .zero

/-- Whether the instruction goes ahead with these register contents. -/
def proceeds (i : Instruction) (f : RegisterFile) : Bool :=
  !i.isConditional || i.condition.holds f

/-- What the instruction does, without its condition. -/
def body (i : Instruction) : String :=
  let d := i.destination.text
  let a := i.sourceA.text
  let b := i.sourceB.text
  if i.isMov then "mov " ++ d ++ ", " ++ b
  else match i.operation? with
    | some o => o.name ++ " " ++ d ++ ", " ++ a ++ ", " ++ b
    | none =>
        "unknown[0x" ++ hexNatPadded 2 i.opcode.toNat ++ "] " ++ d ++ ", " ++ a ++ ", " ++ b

/-- The line of assembly that denotes the instruction, if any line does. -/
def text (i : Instruction) : String :=
  if i.isConditional then i.condition.text ++ " " ++ i.body else i.body

end Instruction

end KeyIndexMachine
