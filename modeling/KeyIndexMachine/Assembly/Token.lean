import KeyIndexMachine.Assembly.Error

/-!
# Characters and names in assembly

The classes of characters that a line is made of, and the reading of a name as a register. A
blank is a space or a tab; white space of other kinds may only stand around a line, not in it.
-/
namespace KeyIndexMachine.Assembly

def isBlank (c : Char) : Bool := c == ' ' || c == '\t'

/-- Characters of register names, and of words that could have been some. -/
def isNameChar (c : Char) : Bool := c.isAlphanum || c == '$' || c == '_'

def isComparisonChar (c : Char) : Bool := c == '<' || c == '>' || c == '=' || c == '!'

/-- Characters of operands as far as the splitting of a line is concerned. -/
def isTokenChar (c : Char) : Bool :=
  !(c == ',' || c == ' ' || c == '\t' || c == '\r' || c == '\n')

/-- The value of a hexadecimal digit, which may be a capital letter. -/
def hexValue? (c : Char) : Option Nat :=
  if '0' ≤ c ∧ c ≤ '9' then some (c.toNat - '0'.toNat)
  else if 'a' ≤ c ∧ c ≤ 'f' then some (c.toNat - 'a'.toNat + 10)
  else if 'A' ≤ c ∧ c ≤ 'F' then some (c.toNat - 'A'.toNat + 10)
  else none

def isHexDigit (c : Char) : Bool := (hexValue? c).isSome

def skipBlanks (cs : List Char) : List Char := cs.dropWhile isBlank

def register (name : List Char) : Except AssemblyError Register :=
  match Register.ofName? (String.ofList name) with
  | some r => .ok r
  | none => .error (.unknownRegister (String.ofList name))

theorem length_skipBlanks_le (cs : List Char) : (skipBlanks cs).length ≤ cs.length :=
  (cs.dropWhile_suffix isBlank).length_le

theorem register_eq_ok_iff {name : List Char} {r : Register} :
    register name = .ok r ↔ r.name = String.ofList name := by
  rw [← Register.ofName?_eq_some_iff]
  unfold register
  split <;> simp_all

end KeyIndexMachine.Assembly
