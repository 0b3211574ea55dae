import KeyIndexMachine.AddressSpace

/-!
# Edits

Every way of changing an address space, as data, so that a history of changes is a list. Reading,
listing and asking what is allocated change nothing and are no edits.
-/
namespace KeyIndexMachine

inductive Edit where
  | store (a : Address) (w : Word)
  /-- Replaces a word by a function of itself. -/
  | update (a : Address) (change : Word → Word)
  | setRegister (r : Register) (w : Word)
  | load (code : List Word) (key : Word)
  /-- Forgets everything. -/
  | clear

namespace AddressSpace

def edit (s : AddressSpace) : Edit → AddressSpace
  | .store a w => s.store a w
  | .update a change => s.update a change
  | .setRegister r w => s.setRegister r w
  | .load code key => s.load code key
  | .clear => empty

/-- What a history of edits, the first one first, makes of a space. -/
def editAll (s : AddressSpace) (history : List Edit) : AddressSpace := history.foldl edit s

@[simp] theorem editAll_nil (s : AddressSpace) : s.editAll [] = s := rfl

@[simp] theorem editAll_cons (s : AddressSpace) (e : Edit) (history : List Edit) :
    s.editAll (e :: history) = (s.edit e).editAll history := rfl

theorem editAll_append (s : AddressSpace) (h k : List Edit) :
    s.editAll (h ++ k) = (s.editAll h).editAll k := by
  simp [editAll]

end AddressSpace

end KeyIndexMachine
