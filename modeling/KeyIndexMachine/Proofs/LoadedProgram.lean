import KeyIndexMachine.Proofs.ListingWalk
import Mathlib.Data.List.TakeWhile

/-!
# A program in memory

Words that are stored one after the other are found where they were put, unless there are so many
that they come round to their start, and the places that they do not reach keep what they held. So a
program without a zero of its own is in memory as a whole once it is loaded under a key other than
0. The zero behind it is the first one from its start on, whatever the area held before.
-/
namespace KeyIndexMachine

theorem Address.place_ne_of_index_ne {key x y : Word} (hk : key ≠ 0#64) (h : x ≠ y) :
    (⟨key, x⟩ : Address).place ≠ (⟨key, y⟩ : Address).place := by
  intro hp
  rcases place_eq_place_iff.mp hp with he | he
  · exact h (congrArg Address.index he)
  · exact hk he.1

namespace AddressSpace

variable {s : AddressSpace} {key index : Word} {ws : List Word}

/-- Storing words in a row touches no place but theirs. -/
theorem read_storeFrom_of_forall_ne {a : Address}
    (h : ∀ j < ws.length, (⟨key, index + BitVec.ofNat 64 j⟩ : Address).place ≠ a.place) :
    (s.storeFrom key index ws).read a = s.read a := by
  induction ws generalizing s index with
  | nil => rfl
  | cons w ws ih =>
      have h0 : (⟨key, index⟩ : Address).place ≠ a.place := by
        simpa using h 0 (by simp)
      rw [storeFrom, ih, read_store, if_neg h0]
      intro j hj
      rw [← Word.add_ofNat_succ]
      exact h (j + 1) (by simpa using hj)

/-- A place holds the word that is stored there last. -/
theorem read_storeFrom_of_last {a : Address} {j : Nat} (hj : j < ws.length)
    (hp : (⟨key, index + BitVec.ofNat 64 j⟩ : Address).place = a.place)
    (hl : ∀ i < ws.length, j < i →
      (⟨key, index + BitVec.ofNat 64 i⟩ : Address).place ≠ a.place) :
    (s.storeFrom key index ws).read a = ws[j] := by
  induction ws generalizing s index j with
  | nil => exact absurd hj (Nat.not_lt_zero j)
  | cons w ws ih =>
      rw [storeFrom]
      cases j with
      | zero =>
          have hrest : ∀ i < ws.length,
              (⟨key, index + 1 + BitVec.ofNat 64 i⟩ : Address).place ≠ a.place := by
            intro i hi
            rw [← Word.add_ofNat_succ]
            exact hl (i + 1) (by simpa using hi) (Nat.succ_pos i)
          rw [BitVec.add_zero] at hp
          rw [read_storeFrom_of_forall_ne hrest, read_store, if_pos hp]
          rfl
      | succ j =>
          rw [Word.add_ofNat_succ] at hp
          refine ih (by simpa using hj) hp ?_
          intro i hi hji
          rw [← Word.add_ofNat_succ]
          exact hl (i + 1) (by simpa using hi) (Nat.succ_lt_succ hji)

/-- Few enough words do not come round to where they started. -/
theorem wordAt_storeFrom (hk : key ≠ 0#64) (hl : ws.length ≤ 2 ^ 64) {j : Nat}
    (hj : j < ws.length) : (s.storeFrom key index ws).wordAt key index j = ws[j] := by
  refine read_storeFrom_of_last hj rfl ?_
  intro i hi hji
  refine Address.place_ne_of_index_ne hk ?_
  intro he
  have hn := congrArg BitVec.toNat ((BitVec.add_right_inj index).mp he)
  simp only [BitVec.toNat_ofNat] at hn
  omega

theorem registers_storeFrom (s : AddressSpace) (hk : key ≠ 0#64) (index : Word) (ws : List Word) :
    (s.storeFrom key index ws).registers = s.registers := by
  induction ws generalizing s index with
  | nil => rfl
  | cons w ws ih => rw [storeFrom, ih, registers_store s hk]

/-- Words that are stored from index 0 on are found at the indices that they reach. -/
theorem read_storeFrom_zero (hk : key ≠ 0#64) (hl : ws.length ≤ 2 ^ 64) (x : Word) :
    (s.storeFrom key 0#64 ws).read ⟨key, x⟩ = ws[x.toNat]?.getD (s.read ⟨key, x⟩) := by
  have hx : 0#64 + BitVec.ofNat 64 x.toNat = x := by simp
  by_cases hj : x.toNat < ws.length
  · have hw : (s.storeFrom key 0#64 ws).wordAt key 0#64 x.toNat = ws[x.toNat] :=
      wordAt_storeFrom hk hl hj
    rw [wordAt, hx] at hw
    rw [hw, List.getElem?_eq_getElem hj, Option.getD_some]
  · rw [List.getElem?_eq_none (Nat.le_of_not_lt hj), Option.getD_none]
    refine read_storeFrom_of_forall_ne ?_
    intro j hjl
    refine Address.place_ne_of_index_ne hk ?_
    intro he
    have hn := congrArg BitVec.toNat he
    rw [BitVec.zero_add, BitVec.toNat_ofNat] at hn
    omega

/-- Words that are stored in one area are not found in another. -/
theorem read_storeFrom_of_key_ne {a : Address} (ha : a.key ≠ 0#64) (h : a.key ≠ key) :
    (s.storeFrom key index ws).read a = s.read a := by
  refine read_storeFrom_of_forall_ne ?_
  intro j _ hp
  rcases Address.place_eq_place_iff.mp hp with he | he
  · exact h (congrArg Address.key he).symm
  · exact ha he.2.1

theorem terminated_of_ne_zero (h : ∀ w ∈ ws, w ≠ 0#64) : terminated ws = ws ++ [0#64] := by
  rw [terminated, List.takeWhile_eq_self_iff.mpr (by simpa using h)]

theorem terminated_append_zero (h : ∀ w ∈ ws, w ≠ 0#64) :
    terminated (ws ++ [0#64]) = ws ++ [0#64] := by
  rw [terminated, List.takeWhile_append_of_pos (by simpa using h)]
  simp

theorem wordAt_load (h : ∀ w ∈ ws, w ≠ 0#64) (hk : key ≠ 0#64) (hl : ws.length < 2 ^ 64) {j : Nat}
    (hj : j < (ws ++ [0#64]).length) :
    (s.load (ws ++ [0#64]) key).wordAt key 0#64 j = (ws ++ [0#64])[j] := by
  have hlen : (ws ++ [0#64]).length ≤ 2 ^ 64 := by
    rw [List.length_append, List.length_singleton]
    omega
  simp only [load, terminated_append_zero h]
  exact wordAt_storeFrom hk hlen hj

/-- From its start on, a loaded program has no zero but the one behind its words. -/
theorem firstZero_load (s : AddressSpace) (h : ∀ w ∈ ws, w ≠ 0#64) (hk : key ≠ 0#64)
    (hl : ws.length < 2 ^ 64) : (s.load (ws ++ [0#64]) key).FirstZero key 0#64 ws.length where
  ne_zero := by
    intro j hj
    rw [wordAt_load h hk hl (by simp; omega), List.getElem_append_left hj]
    exact h _ (List.getElem_mem hj)
  eq_zero := by
    rw [wordAt_load h hk hl (by simp), List.getElem_concat_length rfl]

end AddressSpace

end KeyIndexMachine
