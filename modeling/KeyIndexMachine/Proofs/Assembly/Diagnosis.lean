import KeyIndexMachine.Proofs.Assembly.PartFaults

/-!
# Which error a line is given

A line that splits is looked at part by part: at its condition, its mnemonic, the number of its
operands, and each operand. Each look is a check, a relation between the text of the part and the
error it is given, which refers to no other check. In the order of the checks the first one that
fails decides the error, and the line is assembled if none does. No check finds fault with the line
as a whole.
-/
namespace KeyIndexMachine

/-- Whether the error is about a part of a line, and neither about the line as a whole nor about
what is left of it, and names no line of a program. -/
def AssemblyError.isOfPart : AssemblyError → Bool
  | malformedInstruction _ => false
  | trailingInput _ => false
  | onLine _ _ => false
  | _ => true

namespace Assembly

/-- The token is a constant. -/
def unwritable (token : List Char) : Check := fun e =>
  (∃ v, OperandText token (.constant v)) ∧ e = .illegalWrite (String.ofList token)

def unknownMnemonic (mnemonic : List Char) : Check := fun e =>
  mnemonic ∉ ["add".toList, "sub".toList, "mov".toList] ∧
    e = .unknownMnemonic (String.ofList mnemonic)

/-- How many operands a mnemonic takes. -/
def arity (mnemonic : List Char) : Nat := if mnemonic = "mov".toList then 2 else 3

def wrongCount (mnemonic : List Char) (found : Nat) : Check := fun e =>
  found ≠ arity mnemonic ∧
    e = .wrongOperandCount (String.ofList mnemonic) (arity mnemonic) found

/-- The destination comes first and is also checked for being a constant. -/
def operandsChecks : List (List Char) → List Check
  | [] => []
  | d :: sources => OperandFault d :: unwritable d :: sources.map OperandFault

/-- All checks of a line in their order: condition, mnemonic, number of operands, operands. -/
def Line.checks (l : Line) : List Check :=
  l.condition.toList.flatMap conditionChecks ++
    ([unknownMnemonic l.mnemonic, wrongCount l.mnemonic l.operands.length] ++
      operandsChecks l.operands)

theorem settles_conditionOf (l : Line) :
    Settles (l.condition.toList.flatMap conditionChecks) l.conditionOf := by
  rw [Line.conditionOf]
  cases l.condition with
  | none => exact settles_ok _
  | some text => simpa using settles_condition text

theorem settles_destination (token : List Char) :
    Settles [OperandFault token, unwritable token] (destination token) := by
  intro e
  rw [destination]
  simp only [firstFailing_cons_iff, not_firstFailing_nil, ← operand_eq_error_iff, unwritable,
    ← operand_eq_ok_iff]
  cases operand token with
  | error e' => simp
  | ok o => cases o <;> simp [Operand.isConstant, eq_comm]

theorem known_iff {mnemonic : List Char} :
    mnemonic ∈ ["add".toList, "sub".toList, "mov".toList] ↔
      (∃ o : Operation, Operation.ofName? (String.ofList mnemonic) = some o) ∨
        String.ofList mnemonic = "mov" := by
  simp only [Operation.ofName?_eq_some_iff, eq_ofList_iff, @eq_comm _ _ "mov", List.mem_cons,
    List.not_mem_nil, or_false, ← or_assoc]
  refine or_congr ⟨?_, ?_⟩ eq_comm
  · rintro (rfl | rfl)
    · exact ⟨.add, rfl⟩
    · exact ⟨.sub, rfl⟩
  · rintro ⟨o, rfl⟩
    cases o
    · exact .inl rfl
    · exact .inr rfl

theorem settles_shape (l : Line) :
    Settles [unknownMnemonic l.mnemonic, wrongCount l.mnemonic l.operands.length] l.shape := by
  intro e
  simp only [firstFailing_cons_iff, not_firstFailing_nil, unknownMnemonic, wrongCount, known_iff,
    arity, Line.shape]
  by_cases hm : l.mnemonic = "mov".toList
  · have hs : String.ofList l.mnemonic = "mov" := by rw [hm, String.ofList_toList]
    rw [if_pos hs, if_pos hm]
    split
    · rename_i d b ho
      simp [hs, ho]
    · rename_i hne
      have hl : l.operands.length ≠ 2 := fun h => by
        obtain ⟨d, b, ho⟩ := List.length_eq_two.mp h
        exact hne d b ho
      simp [hs, hl, eq_comm]
  · have hs : String.ofList l.mnemonic ≠ "mov" := fun h => hm (eq_ofList_iff.mp h.symm).symm
    rw [if_neg hs, if_neg hm]
    cases Operation.ofName? (String.ofList l.mnemonic) with
    | none => simp [hs, eq_comm]
    | some o =>
        dsimp only
        split
        · rename_i d a b ho
          simp [ho]
        · rename_i hne
          have hl : l.operands.length ≠ 3 := fun h => by
            obtain ⟨d, a, b, ho⟩ := List.length_eq_three.mp h
            exact hne d a b ho
          simp [hl, eq_comm]

/-- The first source that `mov` supplies is a register and needs no check. -/
theorem settles_operands {l : Line} {s : Shape} (hs : l.shape = .ok s) {β : Type}
    (f : Operand → Operand → Operand → β) :
    Settles (operandsChecks l.operands) (do
      let d ← destination s.destination
      let a ← operand s.sourceA
      let b ← operand s.sourceB
      return f d a b) := by
  have hb : ∀ d a, Settles [OperandFault s.sourceB] (do
      let b ← operand s.sourceB
      return f d a b) := fun d a => (settles_operand _).bind fun b _ => settles_ok _
  rcases shape_eq_ok_iff.mp hs with ⟨-, ho⟩ | ⟨-, ho, -, hz⟩
  · rw [ho]
    refine (settles_destination _).bind fun d _ => ?_
    exact (settles_operand _).bind fun a _ => hb d a
  · have ha : operand s.sourceA = .ok (.register .zero) :=
      operand_eq_ok_iff.mpr (hz ▸ .register .zero)
    rw [ho]
    refine (settles_destination _).bind fun d _ => ?_
    rw [ha]
    exact hb d _

/-- Reading a line fails with the error of the first of its checks that fails. -/
theorem settles_instruction (l : Line) : Settles l.checks l.instruction := by
  refine (settles_conditionOf l).bind fun c _ => ?_
  refine (settles_shape l).bind fun s hs => ?_
  exact settles_operands hs _

/-- What holds of the checks of every part holds of the checks of a line. -/
theorem Line.forall_checks {l : Line} {P : Check → Prop}
    (hcondition : ∀ text ∈ l.condition, ∀ check ∈ conditionChecks text, P check)
    (hmnemonic : P (unknownMnemonic l.mnemonic))
    (hcount : ∀ found, P (wrongCount l.mnemonic found))
    (hoperand : ∀ token ∈ l.operands, P (OperandFault token) ∧ P (unwritable token)) :
    ∀ check ∈ l.checks, P check := by
  have hoperands : ∀ check ∈ operandsChecks l.operands, P check := by
    cases ho : l.operands with
    | nil => simp [operandsChecks]
    | cons d sources =>
        rw [ho] at hoperand
        have hd := hoperand d (by simp)
        simp only [operandsChecks, List.forall_mem_cons, List.forall_mem_map]
        exact ⟨hd.1, hd.2, fun t ht => (hoperand t (by simp [ht])).1⟩
  intro check hm
  simp only [checks, List.mem_append, List.mem_flatMap, Option.mem_toList, List.mem_cons,
    List.not_mem_nil, or_false] at hm
  rcases hm with ⟨text, ht, hm⟩ | (rfl | rfl) | hm
  · exact hcondition text ht check hm
  · exact hmnemonic
  · exact hcount _
  · exact hoperands check hm

/-- Every check of a line finds fault with a part of it. -/
theorem Line.isOfPart_of_checks {l : Line} :
    ∀ check ∈ l.checks, ∀ e, check e → e.isOfPart = true := by
  have hname : ∀ name e, unknownName name e → e.isOfPart = true := by
    rintro name e ⟨-, rfl⟩
    rfl
  refine forall_checks ?_ ?_ ?_ ?_
  · intro text _
    simp only [conditionChecks, List.forall_mem_cons, List.not_mem_nil, false_imp_iff,
      implies_true, and_true]
    refine ⟨?_, ?_, ?_, ?_⟩
    · rintro e ⟨-, rfl⟩
      rfl
    · rintro e ⟨a, symbol, b, -, -, rfl⟩
      rfl
    · rintro e ⟨a, symbol, b, -, h⟩
      exact hname a e h
    · rintro e ⟨a, symbol, b, -, h⟩
      exact hname b e h
  · rintro e ⟨-, rfl⟩
    rfl
  · rintro found e ⟨-, rfl⟩
    rfl
  · intro token _
    constructor
    · intro e h
      cases h with
      | unknownKey _ _ h => exact hname _ e h
      | unknownIndex _ _ _ h => exact hname _ e h
      | noRegister _ _ _ h => exact hname _ e h
      | _ => rfl
    · rintro e ⟨-, rfl⟩
      rfl

theorem instruction_of_lineText {cs : List Char} {l : Line} (h : LineText cs l)
    (hb : ∀ t ∈ l.operands, Bare t) : instruction cs = l.instruction := by
  have hs := ofTrimmed_append h blanks_nil
  rw [List.append_nil] at hs
  rw [instruction, Line.ofChars, h.trim hb, hs]
  rfl

end Assembly

open Assembly in
/-- A line that splits into parts, whatever these are, is given the error of the first of its checks
that fails, and is assembled if none does. So it is never refused as a whole, or for something that
is left of it. -/
theorem Instruction.ofLine_eq_error_iff {line : String} {l : Line} (h : LineText line.toList l)
    (hb : ∀ t ∈ l.operands, Bare t) :
    (∀ e, Instruction.ofLine line = .error e ↔ FirstFailing l.checks e) ∧
    ((∃ i, Instruction.ofLine line = .ok i) ↔ Passes l.checks) ∧
    (∀ t, Instruction.ofLine line ≠ .error (.malformedInstruction t)) ∧
    ∀ t, Instruction.ofLine line ≠ .error (.trailingInput t) := by
  have hs : Settles l.checks (Instruction.ofLine line) := by
    rw [Instruction.ofLine, instruction_of_lineText h hb]
    exact settles_instruction l
  have hpart := hs.forall_error Line.isOfPart_of_checks
  refine ⟨hs, hs.passes_iff.symm, ?_, ?_⟩
  · intro t ht
    cases hpart _ ht
  · intro t ht
    cases hpart _ ht

open Assembly in
/-- The second name in the condition is looked up before the mnemonic, and that before there are too
few operands and the first of them is a constant. -/
theorem Instruction.ofLine_eq_error_iff_right_name :
    Instruction.ofLine "if( r1\t?Ar9 )mul $5 ,\t%" = .error (.unknownRegister "r9") ∧
      FirstFailing (Line.checks
        ⟨some " r1\t?Ar9 ".toList, "mul".toList, ["$5".toList, "%".toList]⟩)
        (.unknownRegister "r9") := by
  have h : Instruction.ofLine "if( r1\t?Ar9 )mul $5 ,\t%" = .error (.unknownRegister "r9") := by
    with_unfolding_all rfl
  have hfront : FrontText "if( r1\t?Ar9 )".toList (some " r1\t?Ar9 ".toList) :=
    @FrontText.some " r1\t?Ar9 ".toList [] (by decide) (by decide) blanks_nil
  have hmul : Letters "mul".toList := ⟨by decide, List.all_eq_true.mp (by decide)⟩
  have hconstant : Token "$5".toList := ⟨by decide, List.all_eq_true.mp (by decide)⟩
  have hpercent : Token "%".toList := ⟨by decide, List.all_eq_true.mp (by decide)⟩
  have htab : Blanks ['\t'] := by simp [Blanks]
  have hshape : LineText "if( r1\t?Ar9 )mul $5 ,\t%".toList
      ⟨some " r1\t?Ar9 ".toList, "mul".toList, ["$5".toList, "%".toList]⟩ :=
    .intro hfront hmul (.some blanks_space (by simp) hconstant
      (.cons blanks_space htab hpercent .nil))
  exact ⟨h, ((Instruction.ofLine_eq_error_iff hshape (by decide)).1 _).mp h⟩

end KeyIndexMachine
