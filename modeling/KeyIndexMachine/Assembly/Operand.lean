import KeyIndexMachine.Assembly.Token
import KeyIndexMachine.Operand

/-!
# Operands in assembly

A register name, a dollar sign with one hexadecimal digit, or `hashtable[K/X]` with two register
names. A register name comes first, so `$0` is a register and the constant zero has no spelling.
-/
namespace KeyIndexMachine.Assembly

def cellWord : List Char := ['h', 'a', 's', 'h', 't', 'a', 'b', 'l', 'e']

/-- The two names in brackets, with a slash between them and nothing else. -/
def bracketedNames? : List Char → Option (List Char × List Char)
  | '[' :: cs =>
      match cs.dropWhile isNameChar with
      | '/' :: ds =>
          let key := cs.takeWhile isNameChar
          let index := ds.takeWhile isNameChar
          if key ≠ [] ∧ index ≠ [] ∧ ds.dropWhile isNameChar = [']'] then some (key, index)
          else none
      | _ => none
  | _ => none

/-- A register that can be the key of an operand in memory. -/
def keyRegister (name token : List Char) : Except AssemblyError Register :=
  match register name with
  | .error e => .error e
  | .ok r =>
      if r = .zero ∨ r = .px then .error (.illegalKey (String.ofList token) r) else .ok r

/-- The constant of one digit that follows a dollar sign. -/
def constant (digits token : List Char) : Except AssemblyError Operand :=
  if digits ≠ [] ∧ digits.all isHexDigit then
    match digits.filterMap hexValue? with
    | [value] => .ok (.constant (BitVec.ofNat 8 value))
    | _ => .error (.constantOutOfRange (String.ofList token))
  else .error (.malformedOperand (String.ofList token))

def indirect (names token : List Char) : Except AssemblyError Operand :=
  match bracketedNames? names with
  | none => .error (.malformedOperand (String.ofList token))
  | some (key, index) =>
      match keyRegister key token with
      | .error e => .error e
      | .ok k =>
          match register index with
          | .error e => .error e
          | .ok x => .ok (.indirect k x)

def operand (token : List Char) : Except AssemblyError Operand :=
  match Register.ofName? (String.ofList token) with
  | some r => .ok (.register r)
  | none =>
      match ['$'].isPrefixOf? token, cellWord.isPrefixOf? token with
      | some digits, _ => constant digits token
      | none, some names => indirect names token
      | none, none =>
          if token.all isNameChar then .error (.unknownRegister (String.ofList token))
          else .error (.malformedOperand (String.ofList token))

end KeyIndexMachine.Assembly
