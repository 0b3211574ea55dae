import KeyIndexMachine.Register

/-!
# Why a line is not assembled

Each cause carries the part of the line that is at fault. A cause found while a whole program is
read is wrapped once with the number of its line, counted from 1.
-/
namespace KeyIndexMachine

inductive AssemblyError where
  /-- No mnemonic where one is due. -/
  | malformedInstruction (line : String)
  | unknownMnemonic (mnemonic : String)
  | wrongOperandCount (mnemonic : String) (expected found : Nat)
  | unknownRegister (name : String)
  | malformedOperand (token : String)
  /-- A constant of more than one digit. -/
  | constantOutOfRange (token : String)
  /-- A key register whose number selects another kind of operand. -/
  | illegalKey (token : String) (key : Register)
  /-- The destination is a constant. -/
  | illegalWrite (token : String)
  | malformedConditional (text : String)
  | unknownComparison (symbol : String)
  | trailingInput (rest : String)
  | onLine (number : Nat) (cause : AssemblyError)
  deriving DecidableEq, Repr

namespace AssemblyError

/-- What the number of a register means in place of a key. -/
def keyMeaning : Register → String
  | .zero => "key 0 means register access"
  | _ => "key 8 means a constant"

def message : AssemblyError → String
  | malformedInstruction line => "cannot parse instruction `" ++ line ++ "`"
  | unknownMnemonic m => "`" ++ m ++ "` is not a mnemonic (expected add, sub or mov)"
  | wrongOperandCount m expected found =>
      m ++ " takes " ++ Nat.repr expected ++ " operands but was given " ++ Nat.repr found
  | unknownRegister name => "not a register: `" ++ name ++ "`"
  | malformedOperand token => "cannot parse operand `" ++ token ++ "`"
  | constantOutOfRange token => "constant `" ++ token ++ "` is not a single hex digit"
  | illegalKey token key =>
      "can't use " ++ key.name ++ " as a key in `" ++ token ++ "` (" ++ keyMeaning key ++ ")"
  | illegalWrite token => "cannot write to constant `" ++ token ++ "`"
  | malformedConditional text => "cannot parse conditional `" ++ text ++ "`"
  | unknownComparison symbol => "not a valid comparison operator: `" ++ symbol ++ "`"
  | trailingInput rest => "unexpected `" ++ rest ++ "` after instruction"
  | onLine n cause => "error on line " ++ Nat.repr n ++ ": " ++ cause.message

end AssemblyError

end KeyIndexMachine
