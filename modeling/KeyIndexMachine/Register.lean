import KeyIndexMachine.Word

/-!
# Register names

Sixteen registers, so that every nibble names exactly one of them: `ofNibble` and `nibble` are
inverse to each other, and so are `name` and `ofName?` on the names below. Names are
case-sensitive. Indices 10 to 15 are also the names of the operand fields of an instruction word.
-/
namespace KeyIndexMachine

inductive Register where
  /-- An ordinary register that merely starts as zero: what is stored there stays there. -/
  | zero
  | r1 | r2 | r3 | r4 | r5 | r6 | r7
  /-- Index of the next instruction, within the area that `pk` selects. -/
  | px
  /-- Key of the area that holds the running program. -/
  | pk
  | ax | bx | dk | dx | ak | bk
  deriving DecidableEq, Repr, Inhabited

namespace Register

/-- All registers in the order of their numbers. -/
def all : Vector Register 16 :=
  #v[zero, r1, r2, r3, r4, r5, r6, r7, px, pk, ax, bx, dk, dx, ak, bk]

def nibble : Register → Nibble
  | zero => 0x0#4
  | r1 => 0x1#4
  | r2 => 0x2#4
  | r3 => 0x3#4
  | r4 => 0x4#4
  | r5 => 0x5#4
  | r6 => 0x6#4
  | r7 => 0x7#4
  | px => 0x8#4
  | pk => 0x9#4
  | ax => 0xA#4
  | bx => 0xB#4
  | dk => 0xC#4
  | dx => 0xD#4
  | ak => 0xE#4
  | bk => 0xF#4

def number (r : Register) : Fin 16 := r.nibble.toFin

def name : Register → String
  | zero => "$0"
  | r1 => "r1"
  | r2 => "r2"
  | r3 => "r3"
  | r4 => "r4"
  | r5 => "r5"
  | r6 => "r6"
  | r7 => "r7"
  | px => "PX"
  | pk => "PK"
  | ax => "AX"
  | bx => "BX"
  | dk => "DK"
  | dx => "DX"
  | ak => "AK"
  | bk => "BK"

def ofNumber (n : Fin 16) : Register := all.get n

def ofNibble (n : Nibble) : Register := ofNumber n.toFin

/-- The register that the low four bits of a word select. -/
def ofWord (w : Word) : Register := ofNibble (w.setWidth 4)

/-- The number of the register as a word. -/
def word (r : Register) : Word := r.nibble.setWidth 64

/-- The register with this number, if there is one. -/
def ofByte? (b : Byte) : Option Register :=
  if h : b.toNat < 16 then some (ofNumber ⟨b.toNat, h⟩) else none

def ofName? (text : String) : Option Register := all.toList.find? (·.name == text)

@[simp] theorem ofNumber_number (r : Register) : ofNumber r.number = r := by cases r <;> rfl

@[simp] theorem number_ofNumber (n : Fin 16) : (ofNumber n).number = n := by
  revert n; decide

@[simp] theorem ofNibble_nibble (r : Register) : ofNibble r.nibble = r := by cases r <;> rfl

@[simp] theorem nibble_ofNibble (n : Nibble) : (ofNibble n).nibble = n := by
  revert n; decide

@[simp] theorem ofWord_word (r : Register) : ofWord r.word = r := by cases r <;> rfl

theorem mem_all (r : Register) : r ∈ all.toList := by cases r <;> decide

/-- Reading a name and writing it are inverse. -/
theorem ofName?_eq_some_iff {text : String} {r : Register} :
    ofName? text = some r ↔ r.name = text := by
  constructor
  · intro h
    simpa using List.find?_some h
  · rintro rfl
    cases r <;> decide

end Register

end KeyIndexMachine
