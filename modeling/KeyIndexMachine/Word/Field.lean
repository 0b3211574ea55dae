import KeyIndexMachine.Word

/-!
# The fields of an instruction word

```text
 63        44 43   40 39   36 35   32 31 28 27 24 23 20 19 16 15 12 11  8 7      0
[ reserved  ][cmp A  ][cmp op ][cmp B  ][ DK ][ DX ][ AK ][ AX ][ BK ][ BX ][opcode]
```

Ten adjacent fields cover bits 0 to 43, and a field is a place to look at and to overwrite. Each
of `D`, `A` and `B` has a key nibble above an index nibble. The twenty bits above the fields are
reserved: nothing here reads them and overwriting a field keeps them.
-/
namespace KeyIndexMachine

inductive Field where
  | opcode
  | bIndex | bKey
  | aIndex | aKey
  | dIndex | dKey
  | compareB | compareOp | compareA
  deriving DecidableEq, Repr

namespace Field

/-- All fields, from the low end of the word to the high end. -/
def all : List Field :=
  [opcode, bIndex, bKey, aIndex, aKey, dIndex, dKey, compareB, compareOp, compareA]

/-- The number of bits below the field. -/
def offset : Field → Nat
  | opcode => 0
  | bIndex => 8
  | bKey => 12
  | aIndex => 16
  | aKey => 20
  | dIndex => 24
  | dKey => 28
  | compareB => 32
  | compareOp => 36
  | compareA => 40

/-- The largest value that fits: eight bits for the opcode, four for the others. -/
def mask : Field → Word
  | opcode => 0xFF#64
  | _ => 0xF#64

def get (f : Field) (w : Word) : Word := (w >>> f.offset) &&& f.mask

/-- Bits of `v` that do not fit into the field are dropped. -/
def set (f : Field) (w v : Word) : Word :=
  (w &&& ~~~(f.mask <<< f.offset)) ||| ((v &&& f.mask) <<< f.offset)

end Field

/-- The bits that belong to some field. -/
def fieldBits : Word := 0xFFFFFFFFFFF#64

/-- Nonzero, since a zero word ends a program, and with every reserved bit clear. -/
def Word.isCanonical (w : Word) : Bool := w != 0 && w &&& ~~~fieldBits == 0

end KeyIndexMachine
