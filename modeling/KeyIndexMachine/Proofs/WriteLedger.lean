import KeyIndexMachine.AddressSpace.Edit

/-!
# An address space as a ledger of writes

What can be read from an address space is settled by the writes since it was last cleared. A ledger
lists them, each as an address and the word put there, and reading looks for the latest entry at the
same location, so registers and sparse memory are one memory here and nothing is said about how
either is kept. `read_editAll_eq_latest` says that the two agree after every history of edits.
Reading is no edit, so reads in between are reads after a shorter history.
-/
namespace KeyIndexMachine

/-- Pairs under a key other than 0 are locations of their own. Under key 0 the index counts modulo
16, whatever its sign. -/
def Address.SameLocation (a b : Address) : Prop :=
  (a.key ≠ 0#64 ∧ a = b) ∨
    (a.key = 0#64 ∧ b.key = 0#64 ∧ a.index.toInt % 16 = b.index.toInt % 16)

instance (a b : Address) : Decidable (a.SameLocation b) := inferInstanceAs (Decidable (_ ∨ _))

/-- The words put at addresses, the latest first. -/
abbrev Ledger := List (Address × Word)

namespace Ledger

/-- The word put at the location of an address last, and zero if none was. -/
def latest (l : Ledger) (a : Address) : Word :=
  match l with
  | [] => 0#64
  | (b, w) :: l => if b.SameLocation a then w else latest l a

/-- The address of a register, by its number. -/
def register (r : Register) : Address := ⟨0#64, BitVec.ofNat 64 r.number.val⟩

/-- Words at consecutive indices under a key, the first one first. -/
def consecutive (key : Word) (first : Nat) (ws : List Word) : List (Address × Word) :=
  (ws.zipIdx first).map fun p => (⟨key, BitVec.ofNat 64 p.2⟩, p.1)

/-- What loading a program writes, in its order: `PK`, `PX`, the words in front of the first zero of
the program, and a zero. -/
def loaded (code : List Word) (key : Word) : List (Address × Word) :=
  (register .pk, key) :: (register .px, 0#64) ::
    consecutive key 0 (code.takeWhile (· != 0#64) ++ [0#64])

/-- A write through a slot puts a word that is made from the latest one there. -/
def record (l : Ledger) : Edit → Ledger
  | .store a w => (a, w) :: l
  | .update a change => (a, change (l.latest a)) :: l
  | .setRegister r w => (register r, w) :: l
  | .load code key => (loaded code key).reverse ++ l
  | .clear => []

def ofHistory (history : List Edit) : Ledger := history.foldl record []

/-- Every read of the space finds the latest entry of the ledger. -/
def Describes (l : Ledger) (s : AddressSpace) : Prop := ∀ a, s.read a = l.latest a

end Ledger

namespace Address

theorem toInt_emod_sixteen_eq_iff (x y : Word) :
    x.toInt % 16 = y.toInt % 16 ↔ x.setWidth 4 = y.setWidth 4 := by
  rw [← BitVec.toNat_inj, BitVec.toNat_setWidth, BitVec.toNat_setWidth,
    BitVec.toInt_eq_toNat_cond, BitVec.toInt_eq_toNat_cond]
  split <;> split <;> omega

theorem sameLocation_iff_place {a b : Address} : a.SameLocation b ↔ a.place = b.place := by
  rw [place_eq_place_iff, SameLocation, toInt_emod_sixteen_eq_iff]
  constructor
  · rintro (⟨-, h⟩ | h)
    · exact .inl h
    · exact .inr h
  · rintro (rfl | h)
    · by_cases hk : a.key = 0#64
      · exact .inr ⟨hk, hk, rfl⟩
      · exact .inl ⟨hk, rfl⟩
    · exact .inr h

end Address

namespace Ledger

theorem register_eq_ofRegister (r : Register) : register r = Address.ofRegister r := by
  cases r <;> rfl

theorem describes_empty : Describes [] AddressSpace.empty := by
  intro a
  rw [AddressSpace.read_empty, latest]

theorem Describes.update {l : Ledger} {s : AddressSpace} (h : l.Describes s) (a : Address)
    (change : Word → Word) : Describes ((a, change (l.latest a)) :: l) (s.update a change) := by
  intro b
  rw [AddressSpace.read_update, latest, h a, h b]
  simp only [Address.sameLocation_iff_place]

theorem Describes.store {l : Ledger} {s : AddressSpace} (h : l.Describes s) (a : Address)
    (w : Word) : Describes ((a, w) :: l) (s.store a w) :=
  h.update a fun _ => w

theorem Describes.setRegister {l : Ledger} {s : AddressSpace} (h : l.Describes s) (r : Register)
    (w : Word) : Describes ((register r, w) :: l) (s.setRegister r w) := by
  rw [AddressSpace.setRegister_eq_store, register_eq_ofRegister]
  exact h.store _ w

theorem Describes.storeFrom {l : Ledger} {s : AddressSpace} (h : l.Describes s) (key : Word)
    (first : Nat) (ws : List Word) :
    Describes ((consecutive key first ws).reverse ++ l)
      (s.storeFrom key (BitVec.ofNat 64 first) ws) := by
  induction ws generalizing l s first with
  | nil => exact h
  | cons w ws ih =>
      have hn : BitVec.ofNat 64 first + 1 = BitVec.ofNat 64 (first + 1) := by
        rw [BitVec.ofNat_add]
        rfl
      have hc : consecutive key first (w :: ws) =
          (⟨key, BitVec.ofNat 64 first⟩, w) :: consecutive key (first + 1) ws := by
        simp [consecutive]
      rw [AddressSpace.storeFrom, hn, hc, List.reverse_cons, List.append_assoc]
      exact ih (h.store _ w) (first + 1)

theorem Describes.load {l : Ledger} {s : AddressSpace} (h : l.Describes s) (code : List Word)
    (key : Word) : Describes ((loaded code key).reverse ++ l) (s.load code key) := by
  have hp := (h.setRegister .pk key).setRegister .px 0#64
  have hrow := hp.storeFrom key 0 (AddressSpace.terminated code)
  simpa [loaded, AddressSpace.load, AddressSpace.terminated] using hrow

theorem Describes.edit {l : Ledger} {s : AddressSpace} (h : l.Describes s) (e : Edit) :
    Describes (l.record e) (s.edit e) := by
  cases e with
  | store a w => exact h.store a w
  | update a change => exact h.update a change
  | setRegister r w => exact h.setRegister r w
  | load code key => exact h.load code key
  | clear => exact describes_empty

theorem Describes.editAll {l : Ledger} {s : AddressSpace} (h : l.Describes s)
    (history : List Edit) : Describes (history.foldl record l) (s.editAll history) := by
  induction history generalizing l s with
  | nil => exact h
  | cons e history ih => exact ih (h.edit e)

end Ledger

namespace AddressSpace

/-- After every history of edits each address holds the word put at its location last. Registers
are read and written as the locations of their numbers under key 0. -/
theorem read_editAll_eq_latest (history : List Edit) :
    (∀ a, (empty.editAll history).read a = (Ledger.ofHistory history).latest a) ∧
    (∀ r, (empty.editAll history).register r =
      (empty.editAll history).read ⟨0#64, BitVec.ofNat 64 r.number.val⟩) ∧
    (∀ r w, (empty.editAll history).setRegister r w =
      (empty.editAll history).store ⟨0#64, BitVec.ofNat 64 r.number.val⟩ w) := by
  refine ⟨Ledger.describes_empty.editAll history, ?_, ?_⟩
  · intro r
    rw [register_eq_read, ← Ledger.register_eq_ofRegister, Ledger.register]
  · intro r w
    rw [setRegister_eq_store, ← Ledger.register_eq_ofRegister, Ledger.register]

end AddressSpace

end KeyIndexMachine
