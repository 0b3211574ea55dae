import KeyIndexMachine.Assembly.Condition
import KeyIndexMachine.Assembly.Line
import KeyIndexMachine.Assembly.Operand
import KeyIndexMachine.Instruction.Encoding

/-!
# Assembling lines and programs

The parts of a line are given their meaning from the left: the condition, the mnemonic with the
number of operands it takes, the destination, the first source and the second. The first part
without a meaning decides the error. A program is a line an instruction; blank lines and comments
count as lines but assemble to nothing, and a zero word ends the program.
-/
namespace KeyIndexMachine

namespace Assembly

/-- An operation with the tokens of its destination and its two sources. -/
structure Shape where
  operation : Operation
  destination : List Char
  sourceA : List Char
  sourceB : List Char
  deriving DecidableEq, Repr

namespace Line

/-- What the mnemonic makes of the operands; `mov` supplies the first source itself. -/
def shape (l : Line) : Except AssemblyError Shape :=
  let mnemonic := String.ofList l.mnemonic
  if mnemonic = "mov" then
    match l.operands with
    | [d, b] => .ok ⟨.add, d, Register.zero.name.toList, b⟩
    | tokens => .error (.wrongOperandCount mnemonic 2 tokens.length)
  else match Operation.ofName? mnemonic with
    | none => .error (.unknownMnemonic mnemonic)
    | some o =>
        match l.operands with
        | [d, a, b] => .ok ⟨o, d, a, b⟩
        | tokens => .error (.wrongOperandCount mnemonic 3 tokens.length)

def conditionOf (l : Line) : Except AssemblyError Condition :=
  match l.condition with
  | none => .ok Condition.always
  | some text => Assembly.condition text

end Line

/-- An operand that can be written to. -/
def destination (token : List Char) : Except AssemblyError Operand :=
  match operand token with
  | .error e => .error e
  | .ok o => if o.isConstant then .error (.illegalWrite (String.ofList token)) else .ok o

def Line.instruction (l : Line) : Except AssemblyError Instruction := do
  let c ← l.conditionOf
  let s ← l.shape
  let d ← destination s.destination
  let a ← operand s.sourceA
  let b ← operand s.sourceB
  return (Instruction.unconditional s.operation d a b).when c

def instruction (cs : List Char) : Except AssemblyError Instruction := do
  let l ← Line.ofChars cs
  l.instruction

def word (cs : List Char) : Except AssemblyError Word := (instruction cs).map Instruction.toWord

/-- The pieces of a text between its line feeds. -/
def lines : List Char → List (List Char)
  | [] => [[]]
  | c :: cs =>
      if c = '\n' then [] :: lines cs
      else match lines cs with
        | [] => [[c]]
        | l :: ls => (c :: l) :: ls

def withoutComment (l : List Char) : List Char := l.takeWhile (· != '#')

/-- The words of the lines that are not blank, and a zero; the lines are numbered from `n`. -/
def wordsOfLines (n : Nat) : List (List Char) → Except AssemblyError (List Word)
  | [] => .ok [0#64]
  | l :: ls =>
      let code := withoutComment l
      if Text.trim code = [] then wordsOfLines (n + 1) ls
      else match word code with
        | .error e => .error (.onLine n e)
        | .ok w => (wordsOfLines (n + 1) ls).map (w :: ·)

end Assembly

/-- Assembles one line. -/
def Instruction.ofLine (line : String) : Except AssemblyError Instruction :=
  Assembly.instruction line.toList

/-- Assembles one line to the word that the machine executes. -/
def Word.ofLine (line : String) : Except AssemblyError Word := Assembly.word line.toList

/-- Assembles a program to its words, the terminating zero among them. -/
def Program.ofText (text : String) : Except AssemblyError (List Word) :=
  Assembly.wordsOfLines 1 (Assembly.lines text.toList)

end KeyIndexMachine
