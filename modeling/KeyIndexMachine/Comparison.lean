import KeyIndexMachine.Word

/-!
# Comparisons

What the conditional field of an instruction asks of two register contents. All sixteen codes have
a spelling, so that every word can be listed and read back. Code 0 asks nothing. Codes 3 to 13 are
reserved: they are spelled `?3` to `?d` and hold of any two words.
-/
namespace KeyIndexMachine

inductive Comparison where
  | always
  | less
  | lessEqual
  /-- The code is three more than the number. -/
  | reserved (n : Fin 11)
  | equal
  | notEqual
  deriving DecidableEq, Repr

namespace Comparison

/-- All comparisons in the order of their codes. -/
def all : Vector Comparison 16 :=
  #v[always, less, lessEqual, reserved 0, reserved 1, reserved 2, reserved 3, reserved 4,
    reserved 5, reserved 6, reserved 7, reserved 8, reserved 9, reserved 10, equal, notEqual]

def code : Comparison → Fin 16
  | always => 0
  | less => 1
  | lessEqual => 2
  | reserved n => ⟨n.val + 3, by omega⟩
  | equal => 14
  | notEqual => 15

def symbol : Comparison → String
  | always => ""
  | less => "<"
  | lessEqual => "<="
  | reserved n => "?" ++ hexNat (n.val + 3)
  | equal => "=="
  | notEqual => "!="

def ofCode (n : Fin 16) : Comparison := all.get n

def ofNibble (n : Nibble) : Comparison := ofCode n.toFin

def nibble (c : Comparison) : Nibble := BitVec.ofFin c.code

/-- The comparison that the low four bits of a word select. -/
def ofWord (w : Word) : Comparison := ofNibble (w.setWidth 4)

/-- The comparison with this code, if there is one. -/
def ofByte? (b : Byte) : Option Comparison :=
  if h : b.toNat < 16 then some (ofCode ⟨b.toNat, h⟩) else none

def ofSymbol? (text : String) : Option Comparison := all.toList.find? (·.symbol == text)

def isReserved : Comparison → Bool
  | reserved _ => true
  | _ => false

/-- Whether the comparison holds of two words, read as signed numbers. -/
def holds : Comparison → Word → Word → Bool
  | less, a, b => a.slt b
  | lessEqual, a, b => a.sle b
  | equal, a, b => a == b
  | notEqual, a, b => a != b
  | always, _, _ => true
  | reserved _, _, _ => true

@[simp] theorem ofCode_code (c : Comparison) : ofCode c.code = c := by
  cases c with
  | reserved n => revert n; decide
  | _ => rfl

@[simp] theorem code_ofCode (n : Fin 16) : (ofCode n).code = n := by
  revert n; decide

@[simp] theorem ofNibble_nibble (c : Comparison) : ofNibble c.nibble = c := by
  simp [ofNibble, nibble]

@[simp] theorem nibble_ofNibble (n : Nibble) : (ofNibble n).nibble = n := by
  simp [ofNibble, nibble]

/-- Reading a symbol and writing it are inverse. -/
theorem ofSymbol?_eq_some_iff {text : String} {c : Comparison} :
    ofSymbol? text = some c ↔ c.symbol = text := by
  constructor
  · intro h
    simpa using List.find?_some h
  · rintro rfl
    rw [← ofCode_code c]
    generalize c.code = n
    revert n
    decide +kernel

end Comparison

end KeyIndexMachine
