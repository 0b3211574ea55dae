import KeyIndexMachine.AddressSpace.Edit
import KeyIndexMachine.Proofs.ListingWalk

/-!
# Where a listing ends

A listing exists when the walk behind it comes to a zero, and the bound that the walk is given has
no part in this: without a zero no bound is large enough. In memory there is always a zero ahead: no
more words in a row can differ from zero than there are cells, as long as a word can count the
cells. In the register file the same sixteen words come round again and again. If none of them is
zero, the walk goes on for ever, and a space can be brought to that.
-/
namespace KeyIndexMachine.AddressSpace

variable {s : AddressSpace} {key index : Word} {n : Nat}

theorem FirstZero.cons (hw : s.read ⟨key, index⟩ ≠ 0#64) (h : s.FirstZero key (index + 1) n) :
    s.FirstZero key index (n + 1) where
  ne_zero := by
    intro j hj
    cases j with
    | zero => rwa [wordAt_zero]
    | succ j =>
        rw [wordAt_succ]
        exact h.ne_zero j (by omega)
  eq_zero := by
    rw [wordAt_succ]
    exact h.eq_zero

theorem exists_firstZero_iff :
    (∃ n, s.FirstZero key index n) ↔ ∃ n, s.wordAt key index n = 0#64 := by
  constructor
  · rintro ⟨n, h⟩
    exact ⟨n, h.eq_zero⟩
  · intro h
    exact ⟨Nat.find h, fun j hj => Nat.find_min h hj, Nat.find_spec h⟩

/-- A walk that is over within its bound has come to a zero. -/
theorem exists_firstZero_of_wordsWithin {fuel : Nat} {ws : List (Word × Word)}
    (h : s.wordsWithin key index fuel = some ws) : ∃ n, s.FirstZero key index n := by
  induction fuel generalizing index ws with
  | zero => cases h
  | succ fuel ih =>
      by_cases hz : s.read ⟨key, index⟩ = 0#64
      · exact exists_firstZero_iff.mpr ⟨0, by rwa [wordAt_zero]⟩
      · rw [wordsWithin_of_read_ne_zero hz] at h
        obtain ⟨vs, hvs, -⟩ := Option.map_eq_some_iff.mp h
        obtain ⟨n, hn⟩ := ih hvs
        exact ⟨n + 1, hn.cons hz⟩

theorem exists_listing_iff :
    (∃ lines, s.listing key index = some lines) ↔ ∃ n, s.wordAt key index n = 0#64 := by
  rw [← exists_firstZero_iff]
  constructor
  · rintro ⟨lines, h⟩
    obtain ⟨ws, hws, -⟩ := Option.map_eq_some_iff.mp h
    exact exists_firstZero_of_wordsWithin hws
  · rintro ⟨n, h⟩
    exact ⟨_, h.listing⟩

/-- Where there is no listing, no walk is ever over. -/
theorem listing_eq_none_iff :
    s.listing key index = none ↔ ∀ fuel, s.wordsWithin key index fuel = none := by
  constructor
  · intro h fuel
    cases hw : s.wordsWithin key index fuel with
    | none => rfl
    | some ws =>
        obtain ⟨n, hn⟩ := exists_firstZero_of_wordsWithin hw
        rw [hn.listing] at h
        cases h
  · intro h
    rw [listing, wordsFrom, h]
    rfl

theorem exists_wordAt_eq_zero (hs : s.size < 2 ^ 64) (hk : key ≠ 0#64) (index : Word) :
    ∃ n ≤ s.size, s.wordAt key index n = 0#64 := by
  by_contra hne
  have h : ∀ j < s.size + 1, s.wordAt key index j ≠ 0#64 := by
    intro j hj hz
    exact hne ⟨j, Nat.lt_succ_iff.mp hj, hz⟩
  have hle := le_size_of_forall_ne_zero hk hs h
  omega

theorem wordAt_register (s : AddressSpace) (index : Word) (n : Nat) :
    s.wordAt 0#64 index n = s.register (Register.ofWord (index + BitVec.ofNat 64 n)) := by
  rw [wordAt, read, Address.place_of_key_eq_zero rfl]
  rfl

/-- From every start the walk through the registers comes by each of them. -/
theorem exists_wordAt_eq_register (s : AddressSpace) (index : Word) (r : Register) :
    ∃ n, s.wordAt 0#64 index n = s.register r := by
  refine ⟨(r.word - index).toNat, ?_⟩
  have hr : index + BitVec.ofNat 64 (r.word - index).toNat = r.word := by
    rw [BitVec.ofNat_toNat, BitVec.setWidth_eq, BitVec.add_comm, BitVec.sub_add_cancel]
  rw [wordAt_register, hr, Register.ofWord_word]

theorem exists_register_eq_zero_iff :
    (∃ n, s.wordAt 0#64 index n = 0#64) ↔ ∃ r, s.register r = 0#64 := by
  constructor
  · rintro ⟨n, h⟩
    exact ⟨_, (s.wordAt_register index n).symm.trans h⟩
  · rintro ⟨r, h⟩
    obtain ⟨n, hn⟩ := s.exists_wordAt_eq_register index r
    exact ⟨n, hn.trans h⟩

/-- In a space whose cells can be counted by a word, the walk of a listing comes to a zero from
every start in memory, after no more words than there are cells, and from a start in the register
file exactly when some register holds zero, after less than sixteen words. Where it comes to a zero
the listing exists, and elsewhere no bound lets the walk end. -/
theorem listing_ends_iff (hs : s.size < 2 ^ 64) (key index : Word) :
    ((∃ n, s.wordAt key index n = 0#64) ↔ key ≠ 0#64 ∨ ∃ r, s.register r = 0#64) ∧
    ((∃ lines, s.listing key index = some lines) ↔ ∃ n, s.wordAt key index n = 0#64) ∧
    (s.listing key index = none ↔ ∀ fuel, s.wordsWithin key index fuel = none) ∧
    ∀ n, s.FirstZero key index n → n ≤ if key = 0#64 then 15 else s.size := by
  refine ⟨?_, exists_listing_iff, listing_eq_none_iff, ?_⟩
  · by_cases hk : key = 0#64
    · subst hk
      simp [exists_register_eq_zero_iff]
    · obtain ⟨n, -, hn⟩ := exists_wordAt_eq_zero hs hk index
      exact ⟨fun _ => .inl hk, fun _ => ⟨n, hn⟩⟩
  · intro n hn
    split
    · rename_i hk
      subst hk
      exact Nat.lt_succ_iff.mp hn.lt_sixteen
    · rename_i hk
      exact hn.le_size hk

/-- Two words on either side of the place where the signed indices wrap around, and one in a
register. -/
theorem listing_ends_iff_wrapping :
    let s := ((empty.store ⟨5#64, 0x7FFFFFFFFFFFFFFF#64⟩ 3#64).store
      ⟨5#64, 0x8000000000000000#64⟩ 4#64).setRegister .px 7#64
    s.size < 2 ^ 64 ∧ (∃ lines, s.listing 5#64 0x7FFFFFFFFFFFFFFF#64 = some lines) ∧
      ∃ lines, s.listing 0#64 8#64 = some lines := by
  intro s
  have hs : s.size < 2 ^ 64 := by
    have h : s.size = 2 := rfl
    omega
  have hmemory := listing_ends_iff hs 5#64 0x7FFFFFFFFFFFFFFF#64
  have hregister := listing_ends_iff hs 0#64 8#64
  refine ⟨hs, hmemory.2.1.mpr (hmemory.1.mpr (.inl (by decide))), ?_⟩
  exact hregister.2.1.mpr (hregister.1.mpr (.inr ⟨.r1, rfl⟩))

/-- Puts 1 into each register. -/
def fillRegisters : List Edit := Register.all.toList.map fun r => .setRegister r 1#64

theorem register_fillRegisters (r : Register) :
    (empty.editAll fillRegisters).register r = 1#64 := by
  cases r <;> rfl

/-- That every walk ends fails for the register file without a zero in it: no word of the walk is
zero, and there is no listing. -/
theorem listing_fillRegisters :
    (∀ n, (empty.editAll fillRegisters).wordAt 0#64 0#64 n ≠ 0#64) ∧
      (∀ fuel, (empty.editAll fillRegisters).wordsWithin 0#64 0#64 fuel = none) ∧
      (empty.editAll fillRegisters).listing 0#64 0#64 = none := by
  have hw : ∀ n, (empty.editAll fillRegisters).wordAt 0#64 0#64 n ≠ 0#64 := by
    intro n
    rw [wordAt_register, register_fillRegisters]
    decide
  have hl : (empty.editAll fillRegisters).listing 0#64 0#64 = none := by
    rw [Option.eq_none_iff_forall_not_mem]
    intro lines h
    obtain ⟨n, hn⟩ := exists_listing_iff.mp ⟨lines, h⟩
    exact hw n hn
  exact ⟨hw, listing_eq_none_iff.mp hl, hl⟩

end KeyIndexMachine.AddressSpace
