/-!
# Words and their hexadecimal text

Registers, memory cells and instructions all hold one kind of datum: a word of 64 bits. A word is
read as a signed number where it is compared or sorted, and as its unsigned two's complement
pattern where it is printed. The texts below have no sign and, unless a width is asked for, no
leading zeros, so `hex` loses nothing.
-/
namespace KeyIndexMachine

abbrev Word := BitVec 64
abbrev Byte := BitVec 8
abbrev Nibble := BitVec 4

/-- Every character is kept; blanks are only added in front. -/
def padLeft (width : Nat) (text : String) : String :=
  String.ofList (text.toList.leftpad width ' ')

def padRight (width : Nat) (text : String) : String :=
  String.ofList (text.toList.rightpad width ' ')

/-- Lower-case hexadecimal digits of a number, without leading zeros. -/
def hexNat (n : Nat) : String := String.ofList (Nat.toDigits 16 n)

/-- At least `width` hexadecimal digits; a longer number is not cut. -/
def hexNatPadded (width n : Nat) : String :=
  String.ofList ((Nat.toDigits 16 n).leftpad width '0')

namespace Word

def hex (w : Word) : String := hexNat w.toNat

/-- The form in which fetched indices are listed: two columns wide, or wider if they need it. -/
def hexColumn (w : Word) : String := padLeft 2 w.hex

end Word

@[simp] theorem toList_padLeft (width : Nat) (text : String) :
    (padLeft width text).toList =
      List.replicate (width - text.length) ' ' ++ text.toList := by
  simp [padLeft, List.leftpad, String.length_toList]

@[simp] theorem toList_padRight (width : Nat) (text : String) :
    (padRight width text).toList =
      text.toList ++ List.replicate (width - text.length) ' ' := by
  simp [padRight, List.rightpad, String.length_toList]

theorem length_padLeft (width : Nat) (text : String) :
    (padLeft width text).length = max width text.length := by
  rw [← String.length_toList, toList_padLeft]
  simp only [List.length_append, List.length_replicate, String.length_toList]
  omega

theorem length_padRight (width : Nat) (text : String) :
    (padRight width text).length = max width text.length := by
  rw [← String.length_toList, toList_padRight]
  simp only [List.length_append, List.length_replicate, String.length_toList]
  omega

@[simp] theorem toList_hexNat (n : Nat) : (hexNat n).toList = Nat.toDigits 16 n := by
  simp [hexNat]

end KeyIndexMachine
