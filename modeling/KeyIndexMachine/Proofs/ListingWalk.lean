import KeyIndexMachine.AddressSpace.Listing
import Mathlib.Data.List.Nodup
import Mathlib.Data.List.Perm.Subperm
import Mathlib.Data.Nat.Digits.Defs

/-!
# The walk behind a listing

A listing walks through an area up to the first zero. If that zero stands `n` places after the
start, the walk goes over the `n` words before it and nothing else. The bound that the walk is given
never cuts it short: the words before the first zero lie in different cells, all of them allocated,
so there are no more of them than cells, and under key 0 every sixteenth word is the same, so there
are less than sixteen.
-/
namespace KeyIndexMachine

namespace Word

theorem length_hexNatPadded {width n : Nat} (hw : 0 < width) (hn : n < 16 ^ width) :
    (hexNatPadded width n).length = width := by
  have hd : (Nat.toDigits 16 n).length ≤ width :=
    (Nat.length_toDigits_le_iff (by decide) hw).mpr hn
  rw [hexNatPadded, String.length_ofList, List.leftpad, List.length_append, List.length_replicate]
  omega

theorem length_hexAligned (w : Word) : w.hexAligned.length = 18 := by
  have h0x : "0x".length = 2 := rfl
  unfold hexAligned
  split
  · rename_i h
    rw [length_padLeft, String.length_append, h0x, length_hexNatPadded (by decide) (by omega)]
    rfl
  · have hw := w.isLt
    rw [String.length_append, h0x, length_hexNatPadded (by decide) (by omega)]

/-- The next index, counted from the one after the start. -/
theorem add_ofNat_succ (index : Word) (j : Nat) :
    index + BitVec.ofNat 64 (j + 1) = index + 1 + BitVec.ofNat 64 j := by
  rw [Nat.add_comm, BitVec.ofNat_add, BitVec.add_assoc]
  rfl

end Word

namespace AddressSpace

variable {s : AddressSpace} {key index : Word} {n : Nat}

/-- The word so many places after a start. -/
def wordAt (s : AddressSpace) (key index : Word) (j : Nat) : Word :=
  s.read ⟨key, index + BitVec.ofNat 64 j⟩

@[simp] theorem wordAt_zero : s.wordAt key index 0 = s.read ⟨key, index⟩ := by
  simp [wordAt]

theorem wordAt_succ (j : Nat) : s.wordAt key index (j + 1) = s.wordAt key (index + 1) j := by
  rw [wordAt, wordAt, Word.add_ofNat_succ]

/-- The first zero at or after a start stands `n` places after it. -/
structure FirstZero (s : AddressSpace) (key index : Word) (n : Nat) : Prop where
  ne_zero : ∀ j < n, s.wordAt key index j ≠ 0#64
  eq_zero : s.wordAt key index n = 0#64

/-- The indices and words of the first `n` places. -/
def stretch (s : AddressSpace) (key index : Word) (n : Nat) : List (Word × Word) :=
  (List.range n).map fun j => (index + BitVec.ofNat 64 j, s.wordAt key index j)

theorem stretch_succ :
    s.stretch key index (n + 1) =
      (index, s.read ⟨key, index⟩) :: s.stretch key (index + 1) n := by
  rw [stretch, List.range_succ_eq_map, List.map_cons, List.map_map, wordAt_zero,
    BitVec.add_zero, stretch]
  simp only [Function.comp_def, Nat.succ_eq_add_one, Word.add_ofNat_succ, wordAt_succ]

theorem FirstZero.tail (h : s.FirstZero key index (n + 1)) : s.FirstZero key (index + 1) n where
  ne_zero := by
    intro j hj
    rw [← wordAt_succ]
    exact h.ne_zero (j + 1) (by omega)
  eq_zero := by
    rw [← wordAt_succ]
    exact h.eq_zero

theorem FirstZero.wordsWithin (h : s.FirstZero key index n) {fuel : Nat} (hf : n < fuel) :
    s.wordsWithin key index fuel = some (s.stretch key index n) := by
  induction n generalizing index fuel with
  | zero =>
      obtain ⟨fuel, rfl⟩ := Nat.exists_eq_add_one_of_ne_zero (Nat.ne_of_gt hf)
      have hz : s.read ⟨key, index⟩ = 0#64 := by rw [← wordAt_zero, h.eq_zero]
      rw [wordsWithin_of_read_eq_zero hz]
      rfl
  | succ n ih =>
      obtain ⟨fuel, rfl⟩ := Nat.exists_eq_add_one_of_ne_zero (Nat.ne_of_gt (Nat.zero_lt_of_lt hf))
      have hw : s.read ⟨key, index⟩ ≠ 0#64 := by
        rw [← wordAt_zero]
        exact h.ne_zero 0 (by omega)
      rw [wordsWithin_of_read_ne_zero hw, ih h.tail (by omega), stretch_succ]
      rfl

/-- Words that repeat after `p` places leave no room for `p` words without a zero. -/
theorem FirstZero.lt_of_period (h : s.FirstZero key index n) {p : Nat} (hp : 0 < p)
    (hr : ∀ j, s.wordAt key index (j + p) = s.wordAt key index j) : n < p := by
  by_contra hn
  have hz := h.eq_zero
  rw [← Nat.sub_add_cancel (Nat.le_of_not_lt hn), hr] at hz
  exact h.ne_zero (n - p) (by omega) hz

theorem FirstZero.lt_two_pow (h : s.FirstZero key index n) : n < 2 ^ 64 := by
  refine h.lt_of_period (by decide) ?_
  intro j
  rw [wordAt, wordAt, BitVec.ofNat_add, show BitVec.ofNat 64 (2 ^ 64) = 0#64 from rfl,
    BitVec.add_zero]

theorem FirstZero.lt_sixteen (h : s.FirstZero 0#64 index n) : n < 16 := by
  refine h.lt_of_period (by decide) ?_
  intro j
  have hp : (⟨0#64, index + BitVec.ofNat 64 (j + 16)⟩ : Address).place =
      (⟨0#64, index + BitVec.ofNat 64 j⟩ : Address).place := by
    refine Address.place_eq_place_iff.mpr (.inr ⟨rfl, rfl, ?_⟩)
    apply BitVec.eq_of_toNat_eq
    simp only [BitVec.toNat_setWidth, BitVec.toNat_add, BitVec.toNat_ofNat]
    omega
  rw [wordAt, wordAt, read, read, hp]

/-- Different cells that are all allocated are no more than the allocated cells. -/
theorem length_le_size {cs : List Cell} (hd : cs.Nodup) (hm : ∀ c ∈ cs, c ∈ s.memory) :
    cs.length ≤ s.size := by
  have hk : cs ⊆ s.memory.keys := fun c hc => Std.ExtTreeMap.mem_keys.mpr (hm c hc)
  rw [size, ← Std.ExtTreeMap.length_keys]
  exact (hd.subperm hk).length_le

theorem mem_memory_of_read_ne_zero {c : Cell} (h : s.read c.address ≠ 0#64) : c ∈ s.memory := by
  by_contra hc
  apply h
  rw [read, Address.place_cell_address]
  exact Std.ExtTreeMap.getD_eq_fallback hc

/-- The cell so many places after a start. -/
def cellAt (key index : Word) (hk : key ≠ 0#64) (j : Nat) : Cell :=
  ⟨key, index + BitVec.ofNat 64 j, hk⟩

theorem nodup_cellAt (index : Word) (hk : key ≠ 0#64) (hn : n ≤ 2 ^ 64) :
    ((List.range n).map (cellAt key index hk)).Nodup := by
  refine List.Nodup.map_on ?_ List.nodup_range
  intro i hi j hj he
  rw [List.mem_range] at hi hj
  have hij : BitVec.ofNat 64 i = BitVec.ofNat 64 j :=
    (BitVec.add_right_inj index).mp (congrArg Cell.index he)
  have hm := congrArg BitVec.toNat hij
  simp only [BitVec.toNat_ofNat] at hm
  omega

/-- Words in a row that all differ from zero are in different cells, unless they come round to their
start. -/
theorem le_size_of_forall_ne_zero (hk : key ≠ 0#64) (hn : n ≤ 2 ^ 64)
    (h : ∀ j < n, s.wordAt key index j ≠ 0#64) : n ≤ s.size := by
  have hm : ∀ c ∈ (List.range n).map (cellAt key index hk), c ∈ s.memory := by
    intro c hc
    obtain ⟨j, hj, rfl⟩ := List.mem_map.mp hc
    exact mem_memory_of_read_ne_zero (h j (List.mem_range.mp hj))
  simpa using length_le_size (nodup_cellAt index hk hn) hm

theorem FirstZero.le_size (h : s.FirstZero key index n) (hk : key ≠ 0#64) : n ≤ s.size :=
  le_size_of_forall_ne_zero hk (Nat.le_of_lt h.lt_two_pow) h.ne_zero

theorem FirstZero.lt_patience (h : s.FirstZero key index n) : n < s.patience := by
  unfold patience
  by_cases hk : key = 0#64
  · subst hk
    have hn := h.lt_sixteen
    omega
  · have hn := h.le_size hk
    omega

theorem FirstZero.wordsFrom (h : s.FirstZero key index n) :
    s.wordsFrom key index = some (s.stretch key index n) :=
  h.wordsWithin h.lt_patience

/-- A listing has a line for each word before the first zero. -/
theorem FirstZero.listing (h : s.FirstZero key index n) :
    s.listing key index = some ((List.range n).map fun j =>
      listingEntry (index + BitVec.ofNat 64 j) (s.wordAt key index j)) := by
  rw [AddressSpace.listing, h.wordsFrom, stretch]
  simp [Function.comp_def]

end AddressSpace

end KeyIndexMachine
