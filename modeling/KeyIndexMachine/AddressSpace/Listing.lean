import KeyIndexMachine.AddressSpace
import KeyIndexMachine.Instruction.Encoding

/-!
# Listings

A listing shows words in hexadecimal beside their assembly text. The listing of an area starts at
an index, wraps around at the end of the area, and stops in front of the first zero. It exists
unless there is no zero at all, which can only happen in the register file: `patience` is more
than the number of words in a row that can differ from zero elsewhere.
-/
namespace KeyIndexMachine

namespace Word

/-- Eighteen columns: sixteen digits, or eight blanks and eight digits if those are enough. -/
def hexAligned (w : Word) : String :=
  if w.toNat < 0x100000000 then padLeft 18 ("0x" ++ hexNatPadded 8 w.toNat)
  else "0x" ++ hexNatPadded 16 w.toNat

def listing (w : Word) : String := w.hexAligned ++ "   " ++ w.text

end Word

namespace AddressSpace

/-- Indices and words up to the first zero, if there is one among the first `fuel` words. -/
def wordsWithin (s : AddressSpace) (key index : Word) : Nat → Option (List (Word × Word))
  | 0 => none
  | fuel + 1 =>
      let w := s.read ⟨key, index⟩
      if w = 0#64 then some []
      else (s.wordsWithin key (index + 1) fuel).map ((index, w) :: ·)

/-- One word more than there are cells and registers. -/
def patience (s : AddressSpace) : Nat := s.size + 17

def wordsFrom (s : AddressSpace) (key index : Word) : Option (List (Word × Word)) :=
  s.wordsWithin key index s.patience

def listingEntry (index w : Word) : String := index.hexColumn ++ ": " ++ w.listing

def listing (s : AddressSpace) (key index : Word) : Option (List String) :=
  (s.wordsFrom key index).map fun ws => ws.map fun p => listingEntry p.1 p.2

theorem wordsWithin_of_read_eq_zero {s : AddressSpace} {key index : Word}
    (h : s.read ⟨key, index⟩ = 0#64) (fuel : Nat) :
    s.wordsWithin key index (fuel + 1) = some [] := by
  simp [wordsWithin, h]

theorem wordsWithin_of_read_ne_zero {s : AddressSpace} {key index : Word}
    (h : s.read ⟨key, index⟩ ≠ 0#64) (fuel : Nat) :
    s.wordsWithin key index (fuel + 1) =
      (s.wordsWithin key (index + 1) fuel).map ((index, s.read ⟨key, index⟩) :: ·) := by
  simp only [wordsWithin, if_neg h]

end AddressSpace

end KeyIndexMachine
