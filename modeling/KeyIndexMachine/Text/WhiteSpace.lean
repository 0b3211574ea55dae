/-!
# White space

The twenty-five characters with the Unicode property `White_Space`, and the trimming of a text on
both sides. The class is wider than `Char.isWhitespace`, which knows four of them.
-/
namespace KeyIndexMachine.Text

/-- First and last code points of the runs of white space. -/
def whiteSpaceRuns : List (Nat × Nat) :=
  [(0x09, 0x0D), (0x20, 0x20), (0x85, 0x85), (0xA0, 0xA0), (0x1680, 0x1680), (0x2000, 0x200A),
    (0x2028, 0x2029), (0x202F, 0x202F), (0x205F, 0x205F), (0x3000, 0x3000)]

def isWhiteSpace (c : Char) : Bool :=
  whiteSpaceRuns.any fun r => r.1 ≤ c.toNat && c.toNat ≤ r.2

def trim (cs : List Char) : List Char :=
  ((cs.dropWhile isWhiteSpace).reverse.dropWhile isWhiteSpace).reverse

/-- Everything in front of the first white space. -/
def firstWord (cs : List Char) : List Char := cs.takeWhile (!isWhiteSpace ·)

/-- Trimming only cuts: what is left stands in the middle of the text. -/
theorem trim_infix (cs : List Char) : trim cs <:+: cs := by
  have h := (cs.dropWhile isWhiteSpace).reverse.dropWhile_suffix isWhiteSpace
  have hp : trim cs <+: cs.dropWhile isWhiteSpace := by
    simpa [trim] using List.reverse_prefix.2 h
  exact hp.isInfix.trans (cs.dropWhile_suffix isWhiteSpace).isInfix

end KeyIndexMachine.Text
