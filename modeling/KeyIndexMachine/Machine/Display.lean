import KeyIndexMachine.Machine.Basic
import KeyIndexMachine.Text.Table

/-!
# Showing a machine

State, leash and step count on one line, and below it the registers beside the allocated cells.
`PX` is marked. A cell of the area that `PK` selects may be part of the program, so it is shown
with its assembly text unless it is zero.
-/
namespace KeyIndexMachine

open Text (Row Table)

def RegisterFile.table (f : RegisterFile) : Table where
  alignment := .right
  titles := ⟨["Register"], ["Contents"]⟩
  rows := Register.all.toList.map fun r =>
    ⟨[(if r = .px then "* --> " else "") ++ r.name ++ " ="], [(f.get r).hex]⟩

namespace AddressSpace

def cellContents (s : AddressSpace) (c : Cell) (w : Word) : String :=
  if c.key = s.register .pk ∧ w ≠ 0#64 then w.hex ++ "   " ++ w.text else w.hex

def memoryTable (s : AddressSpace) : Table where
  alignment := .right
  titles := ⟨["Cell"], ["Contents"]⟩
  rows := s.cells.map fun p => ⟨[p.1.address.text ++ " ="], [s.cellContents p.1 p.2]⟩

def table (s : AddressSpace) : Table where
  alignment := .left
  titles := ⟨["Registers"], ["Memory"]⟩
  rows := [⟨s.registers.table.lines, s.memoryTable.lines⟩]

end AddressSpace

namespace Machine

def header (m : Machine) : String :=
  "State: " ++ m.state.text ++ "\tLeash: " ++ Nat.repr m.leash ++ "\tSteps: " ++ Nat.repr m.steps

/-- The header and the table, each line with a line feed. -/
def display (m : Machine) : String :=
  String.join ((m.header :: m.space.table.lines).map (· ++ "\n"))

end Machine

end KeyIndexMachine
