import KeyIndexMachine.Proofs.WriteRecord

/-!
# Memory that is not read

A run sees of the memory only the cells that it fetches from and those that are sources of the
instructions it carries out. Where it stores depends on registers alone. So two machines that agree
on the registers and on what the first one reads stay in step: what they hold in these cells may
change, but it changes alike, since both store the same words at the same addresses.
-/
namespace KeyIndexMachine

/-- The same registers, and the same cells of `R` with the same contents. -/
structure AddressSpace.SameOn (R : Cell → Prop) (s t : AddressSpace) : Prop where
  registers : s.registers = t.registers
  memory : ∀ c, R c → s.memory[c]? = t.memory[c]?

/-- Equal but for memory outside `R`. -/
structure Machine.SameOn (R : Cell → Prop) (m₁ m₂ : Machine) : Prop where
  space : m₁.space.SameOn R m₂.space
  config : m₁.config = m₂.config
  state : m₁.state = m₂.state
  leash : m₁.leash = m₂.leash
  steps : m₁.steps = m₂.steps

namespace AddressSpace.SameOn

variable {R : Cell → Prop} {s t : AddressSpace}

theorem register (h : s.SameOn R t) (r : Register) : s.register r = t.register r := by
  rw [AddressSpace.register, AddressSpace.register, h.registers]

theorem addressOf? (h : s.SameOn R t) (o : Operand) : s.addressOf? o = t.addressOf? o := by
  cases o with
  | register r => rfl
  | constant v => rfl
  | indirect k x => simp only [AddressSpace.addressOf?, h.register]

theorem memoryOf? (h : s.SameOn R t) (o : Operand) : s.memoryOf? o = t.memoryOf? o := by
  rw [AddressSpace.memoryOf?, AddressSpace.memoryOf?, h.addressOf?]

theorem read (h : s.SameOn R t) {a : Address} (ha : ∀ c : Cell, c.address = a → R c) :
    s.read a = t.read a := by
  cases hp : a.place with
  | register r => rw [AddressSpace.read, AddressSpace.read, hp, h.registers]
  | memory c =>
      have hc : a = c.address := Address.place_eq_memory_iff.mp hp
      rw [hc, AddressSpace.read_cell_address, AddressSpace.read_cell_address,
        h.memory c (ha c hc.symm)]

theorem store (h : s.SameOn R t) (a : Address) (w : Word) :
    (s.store a w).SameOn R (t.store a w) where
  registers := by
    rw [AddressSpace.store, AddressSpace.update, AddressSpace.store, AddressSpace.update]
    cases a.place with
    | register r => rw [h.registers]
    | memory c => exact h.registers
  memory := by
    intro c hc
    rw [AddressSpace.getElem?_memory_store, AddressSpace.getElem?_memory_store, h.memory c hc]

theorem setRegister (h : s.SameOn R t) (r : Register) (w : Word) :
    (s.setRegister r w).SameOn R (t.setRegister r w) := by
  rw [AddressSpace.setRegister_eq_store, AddressSpace.setRegister_eq_store]
  exact h.store _ w

theorem address_fetch (h : s.SameOn R t) : s.fetch.address = t.fetch.address := by
  simp only [AddressSpace.fetch, h.register]

theorem space_fetch (h : s.SameOn R t) : s.fetch.space.SameOn R t.fetch.space := by
  simp only [AddressSpace.fetch, h.register]
  exact h.setRegister _ _

theorem word_fetch (h : s.SameOn R t) (ha : ∀ c : Cell, c.address = s.fetch.address → R c) :
    s.fetch.word = t.fetch.word := by
  change s.fetch.space.read s.fetch.address = t.fetch.space.read t.fetch.address
  rw [← h.address_fetch]
  exact h.space_fetch.read ha

theorem valueOf (h : s.SameOn R t) {o : Operand}
    (ho : ∀ c : Cell, s.addressOf? o = some c.address → R c) : s.valueOf o = t.valueOf o := by
  cases ha : s.addressOf? o with
  | none =>
      cases o with
      | register r => cases ha
      | constant v => rfl
      | indirect k x => cases ha
  | some a =>
      have hb : t.addressOf? o = some a := by rw [← h.addressOf?, ha]
      rw [AddressSpace.valueOf_of_addressOf? ha, AddressSpace.valueOf_of_addressOf? hb]
      refine h.read ?_
      intro c hc
      exact ho c (by rw [ha, hc])

theorem delivery? (h : s.SameOn R t) {i : Instruction}
    (hi : i.delivery? s ≠ none → ∀ c : Cell, c.address ∈ i.sources s → R c) :
    i.delivery? s = i.delivery? t := by
  have ha := h.addressOf? i.destination
  unfold Instruction.delivery? at hi ⊢
  rw [← ha, ← h.registers]
  cases ho : i.operation? with
  | none => rfl
  | some o =>
      cases hd : s.addressOf? i.destination with
      | none => rfl
      | some a =>
          by_cases hp : i.proceeds s.registers
          · have hr : ∀ c : Cell, c.address ∈ i.sources s → R c := by
              simpa [ho, hd, hp] using hi
            have hA : s.valueOf i.sourceA = t.valueOf i.sourceA := by
              refine h.valueOf fun c hc => hr c ?_
              exact List.mem_filterMap.mpr ⟨i.sourceA, by simp, hc⟩
            have hB : s.valueOf i.sourceB = t.valueOf i.sourceB := by
              refine h.valueOf fun c hc => hr c ?_
              exact List.mem_filterMap.mpr ⟨i.sourceB, by simp, hc⟩
            simp only [hA, hB]
          · simp only [hp]
            rfl

end AddressSpace.SameOn

namespace Machine

/-- The addresses that the next step looks at: the one it fetches from, and the sources of the
instruction if it is carried out. -/
def lookedAt (m : Machine) : List Address :=
  match m.state with
  | .halted => []
  | .running =>
      m.space.fetch.address ::
        if m.stored? = none then [] else m.space.fetch.instruction.sources m.space.fetch.space

/-- Some step of the machine looks at the cell. Once it has halted, none does. -/
def Reads (m : Machine) (c : Cell) : Prop := ∃ k, c.address ∈ (m.afterSteps k).lookedAt

namespace SameOn

variable {R : Cell → Prop} {m₁ m₂ : Machine} {n : Nat}

theorem fetch_word (h : m₁.SameOn R m₂) (hs : m₁.state = .running)
    (hr : ∀ c : Cell, c.address ∈ m₁.lookedAt → R c) :
    m₁.space.fetch.word = m₂.space.fetch.word := by
  refine h.space.word_fetch ?_
  intro c hc
  refine hr c ?_
  rw [lookedAt, hs, hc]
  exact List.mem_cons_self

theorem stored? (h : m₁.SameOn R m₂) (hr : ∀ c : Cell, c.address ∈ m₁.lookedAt → R c) :
    m₁.stored? = m₂.stored? := by
  by_cases hg : m₁.state = .running ∧ m₁.space.fetch.word ≠ 0#64 ∧ m₁.leash ≠ 0
  · have hw := h.fetch_word hg.1 hr
    have hi : m₁.space.fetch.instruction = m₂.space.fetch.instruction := by
      rw [Fetch.instruction, Fetch.instruction, hw]
    have hstored : m₁.stored? = m₁.space.fetch.instruction.delivery? m₁.space.fetch.space := by
      rw [Machine.stored?, if_pos hg]
    rw [hstored, Machine.stored?, if_pos (by rwa [← h.state, ← hw, ← h.leash]), ← hi]
    refine h.space.space_fetch.delivery? ?_
    intro hne c hc
    refine hr c ?_
    rw [lookedAt, hg.1, hstored, if_neg hne]
    exact List.mem_cons_of_mem _ hc
  · rw [Machine.stored?, Machine.stored?, if_neg hg, if_neg]
    intro hg'
    rw [← h.state, ← h.leash] at hg'
    exact hg ⟨hg'.1, by rw [h.fetch_word hg'.1 hr]; exact hg'.2.1, hg'.2.2⟩

theorem moved (h : m₁.SameOn R m₂) : m₁.moved.SameOn R m₂.moved := by
  rw [Machine.moved, Machine.moved, ← h.state]
  cases m₁.state with
  | halted => exact h.space
  | running => exact h.space.space_fetch

theorem space_step (h : m₁.SameOn R m₂) (hr : ∀ c : Cell, c.address ∈ m₁.lookedAt → R c) :
    m₁.step.machine.space.SameOn R m₂.step.machine.space := by
  rw [Machine.space_step, Machine.space_step, ← h.stored? hr]
  cases m₁.stored? with
  | none => exact h.moved
  | some d => exact h.moved.store d.1 d.2

theorem traced (h : m₁.SameOn R m₂) (events : List Event) :
    m₁.traced events = m₂.traced events := by
  rw [Machine.traced, Machine.traced, h.config]

/-- Only memory can tell two machines apart that stop for the same reason at the same word. -/
theorem stop_alike (n₁ n₂ : Machine) {f₁ f₂ : Fetch} (hc : n₁.config = n₂.config)
    (hs : n₁.space.SameOn R n₂.space) (ha : f₁.address = f₂.address) (hw : f₁.word = f₂.word)
    (kind : FaultKind) (past : List Event) :
    (n₁.stop kind f₁ past : Turn State).answer = (n₂.stop kind f₂ past).answer ∧
      (n₁.stop kind f₁ past : Turn State).log = (n₂.stop kind f₂ past : Turn State).log := by
  simp only [Machine.stop, hc, hs.registers, ha, hw, and_self]

theorem outcome (h : m₁.SameOn R m₂) (hw : m₁.space.fetch.word = m₂.space.fetch.word) :
    (m₁.space.fetch.outcome = .skipped → m₂.space.fetch.outcome = .skipped) ∧
      ∀ kind, m₁.space.fetch.outcome = .refused kind → m₂.space.fetch.outcome = .refused kind := by
  simp only [Fetch.outcome, Fetch.instruction, Instruction.execute_eq_skipped_iff,
    Instruction.execute_eq_refused_iff, hw, h.space.space_fetch.registers]
  exact ⟨id, fun _ => id⟩

theorem accesses (h : m₁.SameOn R m₂) (i : Instruction) :
    i.accesses m₁.space.fetch.space = i.accesses m₂.space.fetch.space := by
  simp only [Instruction.accesses, h.space.space_fetch.memoryOf?]

/-- What a step does besides changing the space, it does on both machines. -/
theorem turn_step (h : m₁.SameOn R m₂) (hr : ∀ c : Cell, c.address ∈ m₁.lookedAt → R c) :
    m₁.step.machine.state = m₂.step.machine.state ∧ m₁.step.machine.leash = m₂.step.machine.leash ∧
      m₁.step.machine.steps = m₂.step.machine.steps ∧ m₁.step.answer = m₂.step.answer ∧
      m₁.step.log = m₂.step.log := by
  have ha := h.space.address_fetch
  have hspace := h.space.space_fetch
  have hrunning : m₁.state = .running → m₂.state = .running := h.state ▸ id
  cases m₁.stepCase with
  | stayed hs =>
      rw [step_of_halted hs, step_of_halted (by rw [← h.state, hs])]
      exact ⟨h.state, h.leash, h.steps, rfl, rfl⟩
  | ended hs hw =>
      have hword := h.fetch_word hs hr
      rw [step_of_ended hs hw, step_of_ended (hrunning hs) (by rw [← hword, hw]), h.traced, ha]
      exact ⟨rfl, h.leash, h.steps, rfl, rfl⟩
  | exhausted hs hw hl =>
      have hword := h.fetch_word hs hr
      rw [step_of_exhausted hs hw hl,
        step_of_exhausted (hrunning hs) (by rwa [← hword]) (by rw [← h.leash, hl])]
      exact ⟨rfl, h.leash, h.steps,
        stop_alike m₁.advanced m₂.advanced h.config hspace ha hword _ _⟩
  | skipped hs hw hl ho =>
      have hword := h.fetch_word hs hr
      rw [step_of_skipped hs hw hl ho,
        step_of_skipped (hrunning hs) (by rwa [← hword]) (by rwa [← h.leash])
          ((h.outcome hword).1 ho),
        h.traced, fetched, fetched, ha, Fetch.instruction, Fetch.instruction, hword,
        hspace.registers]
      exact ⟨h.state, congrArg (· - 1) h.leash, congrArg (· + 1) h.steps, rfl, rfl⟩
  | done s hs hw hl ho =>
      obtain ⟨a, w, hd, rfl⟩ := stored?_of_done hs hw hl ho
      obtain ⟨hs₂, hw₂, hl₂, ho₂⟩ := done_of_stored? ((h.stored? hr).symm.trans hd)
      rw [step_of_done hs hw hl ho, step_of_done hs₂ hw₂ hl₂ ho₂, h.traced, fetched, fetched, ha,
        h.accesses, Fetch.instruction, Fetch.instruction, h.fetch_word hs hr,
        (hspace.store a w).registers]
      exact ⟨h.state, congrArg (· - 1) h.leash, congrArg (· + 1) h.steps, rfl, rfl⟩
  | refused kind hs hw hl ho =>
      have hword := h.fetch_word hs hr
      rw [step_of_refused hs hw hl ho,
        step_of_refused (hrunning hs) (by rwa [← hword]) (by rwa [← h.leash])
          ((h.outcome hword).2 kind ho),
        h.traced, fetched, fetched, ha, hword]
      exact ⟨rfl, congrArg (· - 1) h.leash, congrArg (· + 1) h.steps,
        stop_alike m₁.paid m₂.paid h.config hspace ha hword _ _⟩

theorem step (h : m₁.SameOn R m₂) (hr : ∀ c : Cell, c.address ∈ m₁.lookedAt → R c) :
    m₁.step.machine.SameOn R m₂.step.machine where
  space := h.space_step hr
  config := by rw [config_step, config_step, h.config]
  state := (h.turn_step hr).1
  leash := (h.turn_step hr).2.1
  steps := (h.turn_step hr).2.2.1

theorem afterSteps (h : m₁.SameOn m₁.Reads m₂) (k : Nat) :
    (m₁.afterSteps k).SameOn m₁.Reads (m₂.afterSteps k) := by
  induction k with
  | zero => exact h
  | succ k ih =>
      rw [afterSteps_succ_eq, afterSteps_succ_eq]
      exact ih.step fun _ hc => ⟨k, hc⟩

theorem turn_afterSteps (h : m₁.SameOn m₁.Reads m₂) (k : Nat) :
    (m₁.afterSteps k).step.answer = (m₂.afterSteps k).step.answer ∧
      (m₁.afterSteps k).step.log = (m₂.afterSteps k).step.log :=
  ((h.afterSteps k).turn_step fun _ hc => ⟨k, hc⟩).2.2.2

theorem writes (h : m₁.SameOn m₁.Reads m₂) (n : Nat) : m₁.writes n = m₂.writes n := by
  induction n with
  | zero => rfl
  | succ n ih =>
      rw [Machine.writes, Machine.writes, ih, (h.afterSteps n).stored? fun _ hc => ⟨n, hc⟩]

theorem course (h : m₁.SameOn m₁.Reads m₂) (hn : Course m₁ n) : Course m₂ n where
  running := by
    intro k hk
    rw [← (h.turn_afterSteps k).1]
    exact hn.running k hk
  last := by
    rw [← (h.turn_afterSteps n).1]
    exact hn.last

end SameOn

/-- Machines that agree on what the first of them reads can not be told apart by a run: it answers
and reports the same and takes as many steps of both, and it ends with the same registers and the
same rest of the leash. Each cell of memory ends with the word that both have stored there last, or
else it is left on each side as it was there. -/
theorem run_same_of_sameOn_reads {m₁ m₂ : Machine} (h : m₁.SameOn m₁.Reads m₂) :
    m₁.run.answer = m₂.run.answer ∧ m₁.run.log = m₂.run.log ∧
    m₁.run.machine.SameOn m₁.Reads m₂.run.machine ∧
    ∃ n, Course m₁ n ∧ Course m₂ n ∧ m₁.writes (n + 1) = m₂.writes (n + 1) ∧
      ∀ c : Cell,
        (∃ w, (m₁.writes (n + 1)).lookup c.address = some w ∧
          m₁.run.machine.space.memory[c]? = some w ∧ m₂.run.machine.space.memory[c]? = some w) ∨
        ((m₁.writes (n + 1)).lookup c.address = none ∧
          m₁.run.machine.space.memory[c]? = m₁.space.memory[c]? ∧
          m₂.run.machine.space.memory[c]? = m₂.space.memory[c]?) := by
  obtain ⟨n, hn₁⟩ := m₁.exists_course
  have hn₂ := h.course hn₁
  have hend := h.afterSteps (n + 1)
  have hwrites := h.writes (n + 1)
  refine ⟨?_, ?_, ?_, n, hn₁, hn₂, hwrites, ?_⟩
  · rw [hn₁.run_eq.2, hn₂.run_eq.2, Turn.ending, Turn.ending, (h.turn_afterSteps n).1,
      ← afterSteps_succ_eq, ← afterSteps_succ_eq, hend.space.register]
  · rw [hn₁.log_eq, hn₂.log_eq]
    simp only [(h.turn_afterSteps _).2]
  · rw [hn₁.run_eq.1, hn₂.run_eq.1]
    exact hend
  · intro c
    rw [hn₁.run_eq.1, hn₂.run_eq.1, getElem?_memory_afterSteps, getElem?_memory_afterSteps,
      ← hwrites]
    cases hw : (m₁.writes (n + 1)).lookup c.address with
    | none => exact .inr ⟨rfl, rfl, rfl⟩
    | some w => exact .inl ⟨w, rfl, rfl, rfl⟩

/-- `add hashtable[DK/DX], hashtable[AK/AX], $1` in `r1`, run from there. It reads one cell and
writes another; two more cells do not matter to it, one of them because it is overwritten. -/
theorem run_same_of_sameOn_reads_increment :
    let s := (((AddressSpace.empty.setRegister .r1 0xCDEA81FF#64).setRegister .px 1#64).setRegister
      .dk 7#64).setRegister .ak 5#64
    let m₁ := ofSpace (s.store ⟨5#64, 0#64⟩ 41#64) {}
    let m₂ := ofSpace (((s.store ⟨5#64, 0#64⟩ 41#64).store ⟨7#64, 0#64⟩ 9#64).store
      ⟨7#64, 1#64⟩ 9#64) {}
    m₁.SameOn m₁.Reads m₂ ∧ m₁.run.answer = m₂.run.answer := by
  intro s m₁ m₂
  have hread : ∀ k, ∀ a ∈ (m₁.afterSteps k).lookedAt, a.key ≠ 7#64 := by
    intro k
    match k with
    | 0 => decide
    | 1 => decide
    | k + 2 =>
        have hs : (m₁.afterSteps 2).state = .halted := by decide
        rw [Nat.add_comm, afterSteps_add, afterSteps_of_halted hs, lookedAt, hs]
        exact fun a ha => absurd ha List.not_mem_nil
  have hsame : m₁.SameOn m₁.Reads m₂ := by
    refine ⟨⟨rfl, ?_⟩, rfl, rfl, rfl, rfl⟩
    intro c hc
    obtain ⟨k, hk⟩ := hc
    have hne : ∀ x : Word, (⟨7#64, x⟩ : Address) ≠ c.address := by
      intro x hx
      exact hread k _ hk (by rw [← hx])
    simp only [m₁, m₂, ofSpace]
    rw [AddressSpace.getElem?_memory_store _ ⟨7#64, 1#64⟩, if_neg (hne _),
      AddressSpace.getElem?_memory_store _ ⟨7#64, 0#64⟩, if_neg (hne _)]
  exact ⟨hsame, (run_same_of_sameOn_reads hsame).1⟩

end Machine

end KeyIndexMachine
