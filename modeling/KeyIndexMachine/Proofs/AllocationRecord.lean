import KeyIndexMachine.AddressSpace.Edit
import KeyIndexMachine.Proofs.LoadEffect

/-!
# Which cells are allocated

A space is asked for changes and for answers, in any order. A cell is allocated when it has been
written to since the space was last cleared, by a store, through a slot, or by the copy of a
program. It does not matter which word was put there, and no question and no write to a register
allocates anything.

The list of the cells is a picture of the memory: in the order of signed keys and indices, each
allocated cell once, with the word that is read there. Together with the registers it is all there
is to a space. A space made anew from this picture is the same space, so it can not be told apart by
anything it is asked later.
-/
namespace KeyIndexMachine

/-- What a client asks of a space. -/
inductive SpaceRequest where
  | edit (e : Edit)
  | read (a : Address)
  | registers
  | isAllocated (a : Address)
  | size
  | cells

/-- What a space answers. -/
inductive SpaceReply where
  | none
  | word (w : Word)
  | registers (f : RegisterFile)
  | truth (b : Bool)
  | count (n : Nat)
  | cells (l : List (Cell × Word))
  deriving DecidableEq

namespace Edit

/-- The addresses that an edit writes to, with whatever words. The copy of a program ends with the
first zero in it, or with a zero behind it. -/
def targets : Edit → List Address
  | .store a _ => [a]
  | .update a _ => [a]
  | .setRegister r _ => [Address.ofRegister r]
  | .load code key =>
      [Address.ofRegister .pk, Address.ofRegister .px] ++
        (List.range ((code.takeWhile (· != 0#64)).length + 1)).map fun j => ⟨key, BitVec.ofNat 64 j⟩
  | .clear => []

end Edit

/-- A question writes nowhere. -/
def SpaceRequest.targets : SpaceRequest → List Address
  | edit e => e.targets
  | _ => []

/-- Some request in the history writes to the address, and the space is not cleared after it. -/
def WrittenSinceClear (history : List SpaceRequest) (a : Address) : Prop :=
  ∃ before r after, history = before ++ r :: after ∧ a ∈ r.targets ∧
    SpaceRequest.edit .clear ∉ after

namespace AddressSpace

/-- A slot shows the word that it holds before it is changed. -/
def reply (s : AddressSpace) : SpaceRequest → SpaceReply
  | .edit (.update a _) => .word (s.read a)
  | .edit _ => .none
  | .read a => .word (s.read a)
  | .registers => .registers s.registers
  | .isAllocated a => .truth (s.isAllocated a)
  | .size => .count s.size
  | .cells => .cells s.cells

/-- Only an edit changes the space. -/
def afterRequest (s : AddressSpace) : SpaceRequest → AddressSpace
  | .edit e => s.edit e
  | _ => s

/-- The space after a history of requests, the first one first. -/
def afterRequests (s : AddressSpace) (history : List SpaceRequest) : AddressSpace :=
  history.foldl afterRequest s

/-- All that a space answers to one request after the other. -/
def replies (s : AddressSpace) : List SpaceRequest → List SpaceReply
  | [] => []
  | r :: later => s.reply r :: (s.afterRequest r).replies later

/-- Edits that set every register and store every cell as they are in a space. -/
def snapshot (s : AddressSpace) : List Edit :=
  (Register.all.toList.map fun r => .setRegister r (s.register r)) ++
    s.cells.map fun p => .store p.1.address p.2

variable {s : AddressSpace} {a b : Address}

theorem isAllocated_of_key_eq_zero (ha : a.key = 0#64) : s.isAllocated a = false := by
  rw [isAllocated, Address.place_of_key_eq_zero ha]

theorem place_eq_place_iff_of_key_ne (ha : a.key ≠ 0#64) : b.place = a.place ↔ b = a := by
  rw [Address.place_eq_place_iff]
  constructor
  · rintro (h | ⟨-, h0, -⟩)
    · exact h
    · exact absurd h0 ha
  · exact .inl

theorem isAllocated_update_iff (ha : a.key ≠ 0#64) (change : Word → Word) :
    (s.update b change).isAllocated a = true ↔ a = b ∨ s.isAllocated a = true := by
  rw [isAllocated_update, Bool.or_eq_true, Bool.and_eq_true, decide_eq_true_iff, decide_eq_true_iff,
    place_eq_place_iff_of_key_ne ha, and_iff_right ha, @eq_comm _ b a]

/-- An edit allocates the cells that it writes to. What was allocated stays so, unless the edit
clears the space. -/
theorem isAllocated_edit_iff (ha : a.key ≠ 0#64) (e : Edit) :
    (s.edit e).isAllocated a = true ↔ a ∈ e.targets ∨ (e ≠ .clear ∧ s.isAllocated a = true) := by
  have hr : ∀ r, a ≠ Address.ofRegister r := by
    intro r h
    exact ha (congrArg Address.key h)
  cases e with
  | store b w =>
      rw [edit, store, isAllocated_update_iff ha]
      simp [Edit.targets]
  | update b change =>
      rw [edit, isAllocated_update_iff ha]
      simp [Edit.targets]
  | setRegister r w =>
      rw [edit, isAllocated_setRegister]
      simp [Edit.targets, hr]
  | load code key =>
      have hlen : (terminated code).length = (code.takeWhile (· != 0#64)).length + 1 := by
        rw [terminated, List.length_append, List.length_singleton]
      rw [edit, isAllocated_load_iff, hlen, or_comm]
      simp only [place_eq_place_iff_of_key_ne ha, Edit.targets, List.mem_append, List.mem_cons, hr,
        List.not_mem_nil, List.mem_map, List.mem_range, or_self, false_or, and_iff_right ha, ne_eq,
        reduceCtorEq, not_false_eq_true, true_and]
  | clear => simp [edit, Edit.targets]

theorem isAllocated_afterRequest_iff (ha : a.key ≠ 0#64) (r : SpaceRequest) :
    (s.afterRequest r).isAllocated a = true ↔
      a ∈ r.targets ∨ (¬ .edit .clear = r ∧ s.isAllocated a = true) := by
  cases r with
  | edit e =>
      rw [afterRequest, isAllocated_edit_iff ha, SpaceRequest.targets]
      simp [@eq_comm _ Edit.clear]
  | _ => simp [afterRequest, SpaceRequest.targets]

/-- The last edits of a history decide, so the first one counts if no clearing follows it. -/
theorem writtenSinceClear_cons (r : SpaceRequest) (history : List SpaceRequest) (a : Address) :
    WrittenSinceClear (r :: history) a ↔
      (a ∈ r.targets ∧ SpaceRequest.edit .clear ∉ history) ∨ WrittenSinceClear history a := by
  constructor
  · rintro ⟨before, q, after, h, ht, hc⟩
    cases before with
    | nil =>
        cases h
        exact .inl ⟨ht, hc⟩
    | cons b before =>
        cases h
        exact .inr ⟨before, q, after, rfl, ht, hc⟩
  · rintro (⟨ht, hc⟩ | ⟨before, q, after, rfl, ht, hc⟩)
    · exact ⟨[], r, history, rfl, ht, hc⟩
    · exact ⟨r :: before, q, after, rfl, ht, hc⟩

theorem isAllocated_afterRequests_iff (ha : a.key ≠ 0#64) (history : List SpaceRequest) :
    (s.afterRequests history).isAllocated a = true ↔
      WrittenSinceClear history a ∨
        (SpaceRequest.edit .clear ∉ history ∧ s.isAllocated a = true) := by
  induction history generalizing s with
  | nil => simp [afterRequests, WrittenSinceClear]
  | cons r history ih =>
      have hstep : s.afterRequests (r :: history) = (s.afterRequest r).afterRequests history := rfl
      rw [hstep, ih, isAllocated_afterRequest_iff ha, writtenSinceClear_cons, List.mem_cons, not_or]
      tauto

/-- The listed cells by their addresses. -/
def listed (s : AddressSpace) : List (Address × Word) := s.cells.map fun p => (p.1.address, p.2)

theorem mem_listed_iff {w : Word} :
    (a, w) ∈ s.listed ↔ s.isAllocated a = true ∧ s.read a = w := by
  by_cases hk : a.key = 0#64
  · have hne : ∀ c : Cell, c.address ≠ a := by
      intro c h
      exact c.key_ne_zero ((congrArg Address.key h).trans hk)
    simp [listed, hne, isAllocated_of_key_eq_zero hk]
  · obtain ⟨c, rfl⟩ : ∃ c : Cell, c.address = a := ⟨⟨a.key, a.index, hk⟩, rfl⟩
    have hmem : (c.address, w) ∈ s.listed ↔ s.memory[c]? = some w := by
      rw [← Std.ExtTreeMap.mem_toList_iff_getElem?_eq_some, listed, List.mem_map]
      constructor
      · rintro ⟨⟨d, v⟩, hd, he⟩
        rw [Prod.mk.injEq] at he
        rw [← Cell.address_injective he.1, ← he.2]
        exact hd
      · intro h
        exact ⟨(c, w), h, rfl⟩
    rw [hmem, isAllocated_cell_address, read_cell_address]
    cases s.memory[c]? with
    | none => simp
    | some v => simp

theorem pairwise_listed (s : AddressSpace) :
    s.listed.Pairwise fun p q => p.1.key.toInt < q.1.key.toInt ∨
      (p.1.key = q.1.key ∧ p.1.index.toInt < q.1.index.toInt) := by
  refine List.Pairwise.map _ ?_ Std.ExtTreeMap.ordered_keys_toList
  intro p q h
  exact Cell.compare_eq_lt_iff.mp h

theorem nodup_listed (s : AddressSpace) : (s.listed.map Prod.fst).Nodup := by
  refine List.Pairwise.map _ ?_ s.pairwise_listed
  rintro p q (h | ⟨-, h⟩) he
  · exact absurd (congrArg (fun b => b.key.toInt) he) (Int.ne_of_lt h)
  · exact absurd (congrArg (fun b => b.index.toInt) he) (Int.ne_of_lt h)

theorem length_listed (s : AddressSpace) : s.listed.length = s.size := by
  rw [listed, List.length_map, cells, Std.ExtTreeMap.length_toList, size]

theorem editAll_setRegister (s t : AddressSpace) (rs : List Register) :
    (t.editAll (rs.map fun r => .setRegister r (s.register r))).memory = t.memory ∧
      ∀ r, (t.editAll (rs.map fun r => .setRegister r (s.register r))).register r =
        if r ∈ rs then s.register r else t.register r := by
  induction rs generalizing t with
  | nil => simp
  | cons q rs ih =>
      obtain ⟨hm, hr⟩ := ih (t.setRegister q (s.register q))
      rw [List.map_cons, editAll_cons, edit]
      refine ⟨hm, ?_⟩
      intro r
      rw [hr, register_setRegister]
      by_cases hmem : r ∈ rs
      · simp [hmem]
      · by_cases hq : q = r
        · simp [hq]
        · simp [hmem, hq, Ne.symm hq]

theorem editAll_store (t : AddressSpace) (l : List (Cell × Word)) :
    (t.editAll (l.map fun p => .store p.1.address p.2)).registers = t.registers ∧
      (t.editAll (l.map fun p => .store p.1.address p.2)).memory = t.memory.insertMany l := by
  induction l generalizing t with
  | nil => simp
  | cons p l ih =>
      obtain ⟨hr, hm⟩ := ih (t.store p.1.address p.2)
      rw [List.map_cons, editAll_cons, edit]
      constructor
      · rw [hr, registers_store _ p.1.key_ne_zero]
      · rw [hm, Std.ExtTreeMap.insertMany_cons, store, update, Address.place_cell_address]

theorem insertMany_toList (m : Std.ExtTreeMap Cell Word) :
    (∅ : Std.ExtTreeMap Cell Word).insertMany m.toList = m := by
  refine Std.ExtTreeMap.ext_getElem? fun c => ?_
  cases h : m[c]? with
  | some w =>
      exact Std.ExtTreeMap.getElem?_insertMany_list_of_mem Std.ReflCmp.compare_self
        Std.ExtTreeMap.distinct_keys_toList
        (Std.ExtTreeMap.mem_toList_iff_getElem?_eq_some.mpr h)
  | none =>
      rw [Std.ExtTreeMap.getElem?_insertMany_list_of_contains_eq_false]
      · exact Std.ExtTreeMap.getElem?_empty
      · rw [Bool.eq_false_iff, Ne, List.contains_iff_mem, List.mem_map]
        rintro ⟨⟨d, w⟩, hd, rfl⟩
        rw [Std.ExtTreeMap.mem_toList_iff_getElem?_eq_some, h] at hd
        cases hd

/-- A new space that is set and stored as a space is, is that space. -/
theorem editAll_snapshot (s : AddressSpace) : empty.editAll s.snapshot = s := by
  obtain ⟨hm, hr⟩ := editAll_setRegister s empty Register.all.toList
  obtain ⟨hr', hm'⟩ := editAll_store
    (empty.editAll (Register.all.toList.map fun r => .setRegister r (s.register r))) s.cells
  have hregisters : (empty.editAll s.snapshot).registers = s.registers := by
    rw [snapshot, editAll_append, hr']
    refine RegisterFile.ext fun r => ?_
    have h := hr r
    rw [if_pos r.mem_all] at h
    exact h
  have hmemory : (empty.editAll s.snapshot).memory = s.memory := by
    rw [snapshot, editAll_append, hm', hm]
    exact insertMany_toList s.memory
  generalize empty.editAll s.snapshot = t at hregisters hmemory
  obtain ⟨f, m⟩ := t
  obtain ⟨g, n⟩ := s
  cases hregisters
  cases hmemory
  rfl

/-- Whatever a new space has been asked, a cell is allocated exactly when it was written to since
the space was last cleared. The list of the cells is strictly in order, has no register in it and no
cell twice, and it shows exactly the allocated cells with the words that are read there. The space
made anew from the registers and this list is the same, and it answers alike from then on. -/
theorem allocated_and_listed (history : List SpaceRequest) :
    let s := empty.afterRequests history
    let l := s.cells.map fun p => (p.1.address, p.2)
    (∀ a, s.isAllocated a = true ↔ a.key ≠ 0#64 ∧ WrittenSinceClear history a) ∧
    (l.Pairwise fun p q => p.1.key.toInt < q.1.key.toInt ∨
      (p.1.key = q.1.key ∧ p.1.index.toInt < q.1.index.toInt)) ∧
    (∀ p ∈ l, p.1.key ≠ 0#64) ∧ (l.map Prod.fst).Nodup ∧
    (∀ a w, (a, w) ∈ l ↔ s.isAllocated a = true ∧ s.read a = w) ∧
    s.size = l.length ∧
    empty.editAll s.snapshot = s ∧
    ∀ later, (empty.editAll s.snapshot).replies later = s.replies later := by
  intro s l
  refine ⟨?_, s.pairwise_listed, ?_, s.nodup_listed, fun _ _ => s.mem_listed_iff,
    s.length_listed.symm, s.editAll_snapshot, fun later => by rw [s.editAll_snapshot]⟩
  · intro a
    by_cases ha : a.key = 0#64
    · simp [isAllocated_of_key_eq_zero ha, ha]
    · rw [isAllocated_afterRequests_iff ha, isAllocated_empty]
      simp [ha]
  · intro p hp
    obtain ⟨q, -, rfl⟩ := List.mem_map.mp hp
    exact q.1.key_ne_zero

end AddressSpace

end KeyIndexMachine
