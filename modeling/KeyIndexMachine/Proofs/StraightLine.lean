import KeyIndexMachine.Proofs.InstructionEffect
import KeyIndexMachine.Proofs.LoadedProgram
import KeyIndexMachine.Proofs.ReferenceMachine
import KeyIndexMachine.Proofs.RunCourse

/-!
# Straight-line programs

A word is straight when it adds or subtracts into a register that is neither `PX` nor `PK`. Its
condition and its sources are free: they may look at `PX` and `PK`, and at the program itself. A
program of straight words cannot leave its track, so it takes every word once and in order and comes
to the terminator, unless its leash is too short.

What the other registers hold then is described without a machine. `advance` says what one word
makes of them, by the nibbles of the word and by what can be read while it is carried out: `PX` is
one ahead of the word, `PK` is the key of the program, and the memory is the program alone. A run is
the fold of `advance` over the words and their indices.
-/
namespace KeyIndexMachine

open Reference

/-- Adds or subtracts into a register, but not into `PX` or `PK`, which have the numbers 8 and 9. -/
structure Word.Straight (w : Word) : Prop where
  opcode : Reference.opcode w = 0xFF ∨ Reference.opcode w = 0xFE
  direct : nibbleAt w 28 = 0
  ne_px : nibbleAt w 24 ≠ 8
  ne_pk : nibbleAt w 24 ≠ 9

namespace Straight

variable {key : Word} {ws : List Word} {c : Config} {n : Nat}

/-- The registers together with the two that locate the program: its key, and the index of the word
that is next. -/
def located (key : Word) (next : Nat) (f : RegisterFile) : RegisterFile :=
  (f.set .pk key).set .px (BitVec.ofNat 64 next)

/-- What can be read if the program is alone in memory. -/
def readable (key : Word) (ws : List Word) (f : RegisterFile) : Store := fun k x =>
  if k = 0#64 then f.get (Register.ofWord x)
  else if k = key then ws[x.toNat]?.getD 0#64
  else 0#64

def computed (M : Store) (w : Word) : Word :=
  let a := source M (nibbleAt w 20) (nibbleAt w 16)
  let b := source M (nibbleAt w 12) (nibbleAt w 8)
  if opcode w = 0xFF then a + b else a - b

/-- What a word and its index make of the registers other than `PX` and `PK`. -/
def advance (key : Word) (ws : List Word) (f : RegisterFile) (entry : Word × Nat) : RegisterFile :=
  let M := readable key ws (located key (entry.2 + 1) f)
  if passesOver M entry.1 then f
  else f.set (Register.ofNibble (nibbleAt entry.1 24)) (computed M entry.1)

/-- The registers other than `PX` and `PK` after the first words of a program. -/
def registersAfter (key : Word) (ws : List Word) (n : Nat) : RegisterFile :=
  (ws.take n).zipIdx.foldl (advance key ws) RegisterFile.zeroed

theorem registersAfter_succ (hn : n < ws.length) :
    registersAfter key ws (n + 1) = advance key ws (registersAfter key ws n) (ws[n], n) := by
  have hl : (ws.take n).length = n := List.length_take_of_le (Nat.le_of_lt hn)
  rw [registersAfter, List.take_succ_eq_append_getElem hn, List.zipIdx_append, List.foldl_append,
    hl, Nat.zero_add, ← registersAfter]
  rfl

theorem get_located_pk (next : Nat) (f : RegisterFile) : (located key next f).get .pk = key := by
  rw [located, RegisterFile.get_set_of_ne _ (by decide), RegisterFile.get_set_self]

theorem get_located_px (next : Nat) (f : RegisterFile) :
    (located key next f).get .px = BitVec.ofNat 64 next := by
  rw [located, RegisterFile.get_set_self]

theorem get_located_of_ne {r : Register} (hx : r ≠ .px) (hk : r ≠ .pk) (next : Nat)
    (f : RegisterFile) : (located key next f).get r = f.get r := by
  rw [located, RegisterFile.get_set_of_ne _ (Ne.symm hx), RegisterFile.get_set_of_ne _ (Ne.symm hk)]

theorem located_set_px (key : Word) (n : Nat) (f : RegisterFile) :
    (located key n f).set .px (BitVec.ofNat 64 n + 1) = located key (n + 1) f := by
  apply RegisterFile.ext
  intro r
  have hn : BitVec.ofNat 64 n + 1 = BitVec.ofNat 64 (n + 1) := (BitVec.ofNat_add n 1).symm
  simp only [located, RegisterFile.get_set, hn]
  split <;> rfl

theorem located_set {r : Register} (hx : r ≠ .px) (hk : r ≠ .pk) (n : Nat) (f : RegisterFile)
    (w : Word) : (located key n f).set r w = located key n (f.set r w) := by
  apply RegisterFile.ext
  intro q
  simp only [located, RegisterFile.get_set]
  by_cases hq : r = q
  · subst hq
    simp [Ne.symm hx, Ne.symm hk]
  · simp [hq]

theorem ne_zero {w : Word} (h : w.Straight) : w ≠ 0#64 := by
  intro hw
  have ho := h.opcode
  subst hw
  revert ho
  decide

theorem destination_ne {w : Word} (h : w.Straight) :
    Register.ofNibble (nibbleAt w 24) ≠ .px ∧ Register.ofNibble (nibbleAt w 24) ≠ .pk := by
  have hn : ∀ n : Nibble, n ≠ 8 → n ≠ 9 →
      Register.ofNibble n ≠ .px ∧ Register.ofNibble n ≠ .pk := by decide
  exact hn _ h.ne_px h.ne_pk

theorem exists_operation {w : Word} (h : w.Straight) :
    ∃ o, (Instruction.ofWord w).operation? = some o := by
  rw [Instruction.operation?, opcode_ofWord]
  rcases h.opcode with ho | ho
  · exact ⟨.add, Operation.ofOpcode?_eq_some_iff.mpr ho.symm⟩
  · exact ⟨.sub, Operation.ofOpcode?_eq_some_iff.mpr ho.symm⟩

/-- A straight word whose condition holds is carried out, and it writes a register. -/
theorem execute_ofWord {w : Word} (h : w.Straight) (s : AddressSpace) :
    (Instruction.ofWord w).execute s =
      if passesOver s.contents w then .skipped
      else .done (s.setRegister (Register.ofNibble (nibbleAt w 24)) (computed s.contents w)) := by
  rw [AddressSpace.setRegister_eq_store]
  have hp := passesOver_contents s w
  split
  · rename_i hover
    rw [hover] at hp
    exact Instruction.execute_eq_skipped_iff.mpr (by simpa using hp)
  · rename_i hover
    obtain ⟨o, ho⟩ := exists_operation h
    have hd : (Instruction.ofWord w).destination =
        .register (Register.ofNibble (nibbleAt w 24)) := by
      rw [destination_ofWord, h.direct]
      rfl
    have hproceeds : (Instruction.ofWord w).proceeds s.registers = true := by simpa [hover] using hp
    refine Instruction.execute_eq_done_iff.mpr ⟨_, computed s.contents w, ?_, rfl⟩
    simp only [Instruction.delivery?, ho, hd, AddressSpace.addressOf?, hproceeds, if_true]
    rw [computed, source_sourceA, source_sourceB, (operation_applied ho _ _).2]

/-- The space in which the program is loaded, with these registers in place of its own. -/
def loadedWith (key : Word) (ws : List Word) (f : RegisterFile) : AddressSpace :=
  ⟨f, (AddressSpace.empty.load ws key).memory⟩

theorem getD_append_zero (ws : List Word) (j : Nat) :
    (ws ++ [0#64])[j]?.getD 0#64 = ws[j]?.getD 0#64 := by
  grind

theorem contents_loadedWith (hz : ∀ w ∈ ws, w ≠ 0#64) (hl : ws.length < 2 ^ 64)
    (f : RegisterFile) : (loadedWith key ws f).contents = readable key ws f := by
  funext k x
  unfold readable
  by_cases h₀ : k = 0#64
  · subst h₀
    rfl
  · let cell : Cell := ⟨k, x, h₀⟩
    have hread : (loadedWith key ws f).contents k x =
        (AddressSpace.empty.load ws key).read ⟨k, x⟩ := by
      change AddressSpace.read _ cell.address = AddressSpace.read _ cell.address
      rw [AddressSpace.read_cell_address, AddressSpace.read_cell_address]
      rfl
    have hempty : ((AddressSpace.empty.setRegister .pk key).setRegister .px 0#64).read ⟨k, x⟩ =
        0#64 := by
      change AddressSpace.read _ cell.address = _
      rw [AddressSpace.read_cell_address]
      simp [AddressSpace.setRegister, AddressSpace.empty]
    rw [hread, AddressSpace.load, AddressSpace.terminated_of_ne_zero hz, if_neg h₀]
    by_cases hk : k = key
    · have hl' : (ws ++ [0#64]).length ≤ 2 ^ 64 := by
        rw [List.length_append, List.length_singleton]
        omega
      subst hk
      rw [if_pos rfl, AddressSpace.read_storeFrom_zero h₀ hl' x, hempty, getD_append_zero]
    · rw [if_neg hk, AddressSpace.read_storeFrom_of_key_ne h₀ hk, hempty]

theorem registers_load (hk : key ≠ 0#64) (ws : List Word) :
    (AddressSpace.empty.load ws key).registers = located key 0 RegisterFile.zeroed := by
  rw [AddressSpace.load, AddressSpace.registers_storeFrom _ hk]
  rfl

/-- The machine that has taken the first words of its program. -/
def midway (c : Config) (ws : List Word) (n : Nat) : Machine where
  space := loadedWith c.programKey ws (located c.programKey n (registersAfter c.programKey ws n))
  config := c
  state := .running
  leash := c.leash - n
  steps := n

theorem midway_zero (hk : c.programKey ≠ 0#64) (ws : List Word) :
    midway c ws 0 = Machine.ofProgram ws c := by
  have hs : AddressSpace.empty.load ws c.programKey =
      loadedWith c.programKey ws (located c.programKey 0 RegisterFile.zeroed) := by
    rw [← registers_load hk ws]
    rfl
  rw [Machine.ofProgram, hs]
  rfl

/-- The fetch of a machine that is on its way finds the word at the index that it has come to. -/
theorem fetch_midway (hk : c.programKey ≠ 0#64) (hz : ∀ w ∈ ws, w ≠ 0#64)
    (hl : ws.length < 2 ^ 64) (hn : n ≤ ws.length) :
    (midway c ws n).space.fetch =
      ⟨⟨c.programKey, BitVec.ofNat 64 n⟩,
        loadedWith c.programKey ws
          (located c.programKey (n + 1) (registersAfter c.programKey ws n)),
        ws[n]?.getD 0#64⟩ := by
  let f := registersAfter c.programKey ws n
  have hpk : (midway c ws n).space.register .pk = c.programKey := get_located_pk n f
  have hpx : (midway c ws n).space.register .px = BitVec.ofNat 64 n := get_located_px n f
  have hmoved : (midway c ws n).space.setRegister .px (BitVec.ofNat 64 n + 1) =
      loadedWith c.programKey ws (located c.programKey (n + 1) f) := by
    rw [← located_set_px]
    rfl
  have hword : (loadedWith c.programKey ws (located c.programKey (n + 1) f)).read
      ⟨c.programKey, BitVec.ofNat 64 n⟩ = ws[n]?.getD 0#64 := by
    change AddressSpace.contents _ c.programKey (BitVec.ofNat 64 n) = _
    rw [contents_loadedWith hz hl, readable, if_neg hk, if_pos rfl, BitVec.toNat_ofNat,
      Nat.mod_eq_of_lt (by omega)]
  simp only [AddressSpace.fetch, hpk, hpx, hmoved, hword]
  rfl

/-- The next word is passed over, or else it writes its register. -/
theorem outcome_midway (hk : c.programKey ≠ 0#64) (hw : ∀ w ∈ ws, w.Straight)
    (hl : ws.length < 2 ^ 64) (hn : n < ws.length) :
    ((midway c ws n).space.fetch.outcome = .skipped ∧
      registersAfter c.programKey ws (n + 1) = registersAfter c.programKey ws n) ∨
    (midway c ws n).space.fetch.outcome = .done (loadedWith c.programKey ws
      (located c.programKey (n + 1) (registersAfter c.programKey ws (n + 1)))) := by
  have hz : ∀ w ∈ ws, w ≠ 0#64 := fun w h => ne_zero (hw w h)
  have hs : ws[n].Straight := hw _ (List.getElem_mem hn)
  rw [registersAfter_succ hn, fetch_midway hk hz hl (Nat.le_of_lt hn), List.getElem?_eq_getElem hn,
    Option.getD_some, Fetch.outcome, Fetch.instruction, execute_ofWord hs,
    contents_loadedWith hz hl, advance]
  by_cases hover : passesOver (readable c.programKey ws
      (located c.programKey (n + 1) (registersAfter c.programKey ws n))) ws[n]
  · rw [if_pos hover, if_pos hover]
    exact .inl ⟨rfl, rfl⟩
  · rw [if_neg hover, if_neg hover]
    obtain ⟨hx, hp⟩ := destination_ne hs
    rw [← located_set hx hp]
    exact .inr rfl

/-- One step takes one word and goes on to the next. -/
theorem step_midway (hk : c.programKey ≠ 0#64) (hw : ∀ w ∈ ws, w.Straight)
    (hl : ws.length < 2 ^ 64) (hc : ws.length ≤ c.leash) (hn : n < ws.length) :
    (midway c ws n).step.answer = .value .running ∧
      (midway c ws n).step.machine = midway c ws (n + 1) := by
  have hz : ∀ w ∈ ws, w ≠ 0#64 := fun w h => ne_zero (hw w h)
  have hfetch := fetch_midway hk hz hl (Nat.le_of_lt hn)
  have hword : (midway c ws n).space.fetch.word ≠ 0#64 := by
    rw [hfetch, List.getElem?_eq_getElem hn]
    exact hz _ (List.getElem_mem hn)
  have hleash : (midway c ws n).leash ≠ 0 := Nat.sub_ne_zero_of_lt (Nat.lt_of_lt_of_le hn hc)
  rcases outcome_midway hk hw hl hn with ⟨ho, hr⟩ | ho
  · rw [Machine.step_of_skipped rfl hword hleash ho]
    refine ⟨rfl, ?_⟩
    rw [Machine.paid, hfetch, midway, midway, hr]
    rfl
  · rw [Machine.step_of_done rfl hword hleash ho]
    exact ⟨rfl, rfl⟩

/-- The step behind the last word halts the machine. -/
theorem step_midway_length (hk : c.programKey ≠ 0#64) (hw : ∀ w ∈ ws, w.Straight)
    (hl : ws.length < 2 ^ 64) :
    (midway c ws ws.length).step.answer = .value .halted ∧
      (midway c ws ws.length).step.machine =
        { midway c ws ws.length with
          space := loadedWith c.programKey ws (located c.programKey (ws.length + 1)
            (registersAfter c.programKey ws ws.length))
          state := .halted } := by
  have hz : ∀ w ∈ ws, w ≠ 0#64 := fun w h => ne_zero (hw w h)
  have hfetch := fetch_midway hk hz hl (Nat.le_refl ws.length)
  rw [List.getElem?_eq_none (Nat.le_refl _)] at hfetch
  have hword : (midway c ws ws.length).space.fetch.word = 0#64 := by
    rw [hfetch]
    rfl
  rw [Machine.step_of_ended rfl hword, Machine.advanced, hfetch]
  exact ⟨rfl, rfl⟩

theorem afterSteps_ofProgram (hk : c.programKey ≠ 0#64) (hw : ∀ w ∈ ws, w.Straight)
    (hl : ws.length < 2 ^ 64) (hc : ws.length ≤ c.leash) (hn : n ≤ ws.length) :
    (Machine.ofProgram ws c).afterSteps n = midway c ws n := by
  induction n with
  | zero => rw [midway_zero hk, Machine.afterSteps_zero]
  | succ n ih =>
      rw [Machine.afterSteps_succ_eq, ih (Nat.le_of_succ_le hn), (step_midway hk hw hl hc hn).2]

theorem course_ofProgram (hk : c.programKey ≠ 0#64) (hw : ∀ w ∈ ws, w.Straight)
    (hl : ws.length < 2 ^ 64) (hc : ws.length ≤ c.leash) :
    (Machine.ofProgram ws c).Course ws.length where
  running := by
    intro k hkl
    rw [afterSteps_ofProgram hk hw hl hc (Nat.le_of_lt hkl)]
    exact (step_midway hk hw hl hc hkl).1
  last := by
    rw [afterSteps_ofProgram hk hw hl hc (Nat.le_refl _), (step_midway_length hk hw hl).1]
    simp

end Straight

namespace Machine

open Straight

/-- A program of straight words that the leash can pay for takes its words once each and in order,
whatever their conditions and sources are, and ends with what the fold over its words leaves in
`r1`. The memory is as it was loaded. -/
theorem run_straight {ws : List Word} {c : Config} (hw : ∀ w ∈ ws, w.Straight)
    (hl : ws.length < 2 ^ 63) (hk : c.programKey ≠ 0#64) (hc : ws.length ≤ c.leash) :
    let m := ofProgram ws c
    let f := ws.zipIdx.foldl (advance c.programKey ws) RegisterFile.zeroed
    m.run.answer = .value (m.run.machine.space.register .r1) ∧
    m.run.machine.steps = ws.length ∧
    m.run.machine.leash = c.leash - ws.length ∧
    m.run.machine.space.memory = m.space.memory ∧
    m.run.machine.space.register .px = BitVec.ofNat 64 (ws.length + 1) ∧
    m.run.machine.space.register .pk = c.programKey ∧
    (∀ r, r ≠ .px → r ≠ .pk → m.run.machine.space.register r = f.get r) ∧
    Course m ws.length ∧
    ∀ n (hn : n < ws.length), (m.afterSteps n).space.fetch.address =
        ⟨c.programKey, BitVec.ofNat 64 n⟩ ∧ (m.afterSteps n).space.fetch.word = ws[n] := by
  intro m f
  have hl' : ws.length < 2 ^ 64 := by omega
  have hcourse : Course m ws.length := course_ofProgram hk hw hl' hc
  have hf : registersAfter c.programKey ws ws.length = f := by
    rw [registersAfter, List.take_length]
  have hlast := step_midway_length hk hw hl'
  have hmachine : m.run.machine = (midway c ws ws.length).step.machine := by
    rw [hcourse.run_eq.1, afterSteps_succ_eq, afterSteps_ofProgram hk hw hl' hc (Nat.le_refl _)]
  have hend := hmachine.trans hlast.2
  rw [hf] at hend
  refine ⟨?_, ?_, ?_, ?_, ?_, ?_, ?_, hcourse, ?_⟩
  · rw [hcourse.run_eq.2, Turn.ending, afterSteps_ofProgram hk hw hl' hc (Nat.le_refl _), hlast.1,
      ← hmachine]
    rfl
  · rw [hend]
    rfl
  · rw [hend]
    rfl
  · rw [hend]
    rfl
  · rw [hend]
    exact get_located_px _ f
  · rw [hend]
    exact get_located_pk _ f
  · intro r hx hp
    rw [hend]
    exact get_located_of_ne hx hp _ f
  · intro n hn
    rw [afterSteps_ofProgram hk hw hl' hc (Nat.le_of_lt hn),
      fetch_midway hk (fun w h => ne_zero (hw w h)) hl' (Nat.le_of_lt hn),
      List.getElem?_eq_getElem hn]
    exact ⟨rfl, rfl⟩

/-- `mov r2, $3`, then `if(r2<PX) sub r1, r2, $1`, which is passed over, then
`add r1, hashtable[PK/PX], r2`, which adds to the word behind it, and `sub r3, PX, r1`. -/
theorem run_straight_reading_program :
    let ws : List Word := [0x020083FF#64, 0x218010281FE#64, 0x019802FF#64, 0x030801FE#64]
    let m := ofProgram ws { leash := 4 }
    (∀ w ∈ ws, w.Straight) ∧ m.run.answer = .value 0x03080201#64 ∧ m.run.machine.steps = 4 ∧
      m.run.machine.space.register .r3 = 4#64 - 0x03080201#64 := by
  intro ws m
  have hw : ∀ w ∈ ws, w.Straight := by
    intro w h
    simp only [ws, List.mem_cons, List.not_mem_nil, or_false] at h
    rcases h with rfl | rfl | rfl | rfl <;> constructor <;> decide
  have hrun := run_straight (c := { leash := 4 }) hw (by decide) (by decide) (by decide)
  obtain ⟨ha, hs, -, -, -, -, hr, -⟩ := hrun
  refine ⟨hw, ?_, hs, ?_⟩
  · rw [ha, hr .r1 (by decide) (by decide)]
    decide
  · rw [hr .r3 (by decide) (by decide)]
    decide

end Machine

end KeyIndexMachine
