import KeyIndexMachine.Execution

/-!
# What executing an instruction can do

An instruction is passed over, refused, or carried out, and which of these happens is seen from the
instruction and the registers alone: memory is looked at only for the sources of an instruction that
is carried out. Carrying it out is one store, and the registers determine its address.
-/
namespace KeyIndexMachine.Instruction

/-- Why the instruction can not be carried out, whatever the registers hold. -/
def objection? (i : Instruction) : Option FaultKind :=
  match i.operation?, i.destination with
  | none, _ => some (.illegalOpcode i.opcode)
  | some _, .constant v => some (.illegalWrite v)
  | some _, _ => none

/-- What an instruction stores and where, if it is carried out. -/
def delivery? (i : Instruction) (s : AddressSpace) : Option (Address × Word) :=
  match i.operation?, s.addressOf? i.destination with
  | some o, some a =>
      if i.proceeds s.registers then some (a, o.apply (s.valueOf i.sourceA) (s.valueOf i.sourceB))
      else none
  | _, _ => none

/-- The addresses of those sources that are not constants. -/
def sources (i : Instruction) (s : AddressSpace) : List Address :=
  [i.sourceA, i.sourceB].filterMap s.addressOf?

variable {i : Instruction} {s t : AddressSpace}

theorem objection?_eq_none {o : Operation} (ho : i.operation? = some o)
    (hd : i.destination.isConstant = false) : i.objection? = none := by
  unfold objection?
  rw [ho]
  cases hi : i.destination with
  | register r => rfl
  | indirect k x => rfl
  | constant v =>
      rw [hi] at hd
      cases hd

theorem execute_eq_skipped_iff : i.execute s = .skipped ↔ i.proceeds s.registers = false := by
  unfold execute
  split
  · rename_i hp
    cases ho : i.operation? with
    | none => simp [hp]
    | some o => cases hd : i.destination <;> simp [hp]
  · rename_i hp
    simp [hp]

theorem execute_eq_refused_iff {kind : FaultKind} :
    i.execute s = .refused kind ↔ i.proceeds s.registers = true ∧ i.objection? = some kind := by
  unfold execute objection?
  split
  · rename_i hp
    cases ho : i.operation? with
    | none => simp [hp]
    | some o => cases hd : i.destination <;> simp [hp]
  · rename_i hp
    simp [hp]

/-- An instruction is refused for its opcode, or else for its destination. -/
theorem refused_cases {kind : FaultKind} (h : i.execute s = .refused kind) :
    i.proceeds s.registers = true ∧
      ((i.operation? = none ∧ kind = .illegalOpcode i.opcode) ∨
        ∃ v, i.operation? ≠ none ∧ i.destination = .constant v ∧ kind = .illegalWrite v) := by
  obtain ⟨hp, hk⟩ := execute_eq_refused_iff.mp h
  refine ⟨hp, ?_⟩
  unfold objection? at hk
  split at hk
  · rename_i ho
    exact .inl ⟨ho, (Option.some.inj hk).symm⟩
  · rename_i o v ho hd
    exact .inr ⟨v, by simp [ho], hd, (Option.some.inj hk).symm⟩
  · cases hk

theorem ne_ranTooLong_of_refused {kind : FaultKind} (h : i.execute s = .refused kind) :
    kind ≠ .ranTooLong := by
  intro hk
  cases (refused_cases h).2 with
  | inl ho => simp [hk] at ho
  | inr hd => simp [hk] at hd

theorem execute_eq_done_iff :
    i.execute s = .done t ↔ ∃ a w, i.delivery? s = some (a, w) ∧ s.store a w = t := by
  unfold execute delivery?
  split
  · rename_i hp
    cases ho : i.operation? with
    | none => simp
    | some o =>
        cases hd : i.destination with
        | register r => simp [AddressSpace.addressOf?, AddressSpace.setRegister_eq_store, and_assoc]
        | constant v => simp [AddressSpace.addressOf?]
        | indirect k x => simp [AddressSpace.addressOf?, and_assoc]
  · cases i.operation? <;> cases s.addressOf? i.destination <;> simp

theorem delivery?_eq_none (h : ∀ t, i.execute s ≠ .done t) : i.delivery? s = none := by
  cases hd : i.delivery? s with
  | none => rfl
  | some d => exact absurd (execute_eq_done_iff.mpr ⟨d.1, d.2, hd, rfl⟩) (h _)

end KeyIndexMachine.Instruction
