import KeyIndexMachine.Register

/-!
# The register file

Sixteen words, one a register. Two files are equal exactly when they agree on every register, and
their text shows all of them.
-/
namespace KeyIndexMachine

structure RegisterFile where
  words : Vector Word 16
  deriving DecidableEq, Repr

namespace RegisterFile

def zeroed : RegisterFile := ⟨Vector.replicate 16 0⟩

def get (f : RegisterFile) (r : Register) : Word := f.words[r.number.val]

def set (f : RegisterFile) (r : Register) (w : Word) : RegisterFile :=
  ⟨f.words.set r.number w⟩

/-- Each register and its contents in hexadecimal, in the order of the register numbers. -/
def text (f : RegisterFile) : String :=
  " ".intercalate (Register.all.toList.map fun r => r.name ++ "=" ++ (f.get r).hex)

@[simp] theorem get_zeroed (r : Register) : zeroed.get r = 0 := by
  simp [zeroed, get]

theorem get_set (f : RegisterFile) (r s : Register) (w : Word) :
    (f.set r w).get s = if r = s then w else f.get s := by
  have hn : r.number.val = s.number.val ↔ r = s := by
    constructor
    · intro hv
      rw [← Register.ofNumber_number r, ← Register.ofNumber_number s, Fin.ext hv]
    · rintro rfl
      rfl
  simp only [get, set, Vector.getElem_set, hn]

@[simp] theorem get_set_self (f : RegisterFile) (r : Register) (w : Word) :
    (f.set r w).get r = w := by
  simp [get_set]

theorem get_set_of_ne (f : RegisterFile) {r s : Register} (h : r ≠ s) (w : Word) :
    (f.set r w).get s = f.get s := by
  simp [get_set, h]

@[ext] theorem ext {f g : RegisterFile} (h : ∀ r, f.get r = g.get r) : f = g := by
  obtain ⟨v⟩ := f
  obtain ⟨w⟩ := g
  have hvw : v = w := by
    apply Vector.ext
    intro i hi
    simpa [get] using h (Register.ofNumber ⟨i, hi⟩)
  rw [hvw]

end RegisterFile

end KeyIndexMachine
