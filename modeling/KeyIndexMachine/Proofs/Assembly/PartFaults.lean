import KeyIndexMachine.Proofs.Assembly.Acceptance
import KeyIndexMachine.Proofs.Assembly.FirstFailure

/-!
# What is wrong with a part of a line

The text of a conditional is taken apart first, and then its operator and its two names are looked
up, the operator before the names. A token that is no operand has one fault, which depends on how it
starts: behind a dollar sign there should be one digit, behind the word for memory two names in
brackets, and anything else should be the name of a register. The checks refer to the grammar and to
no function that reads a part; what is proved is that they settle the reading of the parts.
-/
namespace KeyIndexMachine.Assembly

/-- No register has this name. -/
def unknownName (name : List Char) : Check := fun e =>
  (∀ r : Register, name ≠ r.name.toList) ∧ e = .unknownRegister (String.ofList name)

/-- The operator is spelled like no comparison. -/
def unknownOperator (symbol : List Char) : Check := fun e =>
  (∀ c, ¬ ComparisonText symbol c) ∧ e = .unknownComparison (String.ofList symbol)

/-- The text is not made of a name, an operator and a name. -/
def malformedCondition (text : List Char) : Check := fun e =>
  (¬ ∃ a symbol b, PartsText text a symbol b) ∧
    e = .malformedConditional ("if(" ++ String.ofList text ++ ")")

/-- A check of the name, the operator and the name that make up the text. -/
def checkParts (text : List Char) (check : List Char → List Char → List Char → Check) : Check :=
  fun e => ∃ a symbol b, PartsText text a symbol b ∧ check a symbol b e

def conditionChecks (text : List Char) : List Check :=
  [malformedCondition text,
    checkParts text fun _ symbol _ => unknownOperator symbol,
    checkParts text fun a _ _ => unknownName a,
    checkParts text fun _ _ b => unknownName b]

theorem register_eq_error_iff {name : List Char} {e : AssemblyError} :
    register name = .error e ↔ unknownName name e := by
  cases h : register name with
  | ok r =>
      have hr := register_eq_ok_iff_toList.mp h
      constructor
      · nofun
      · rintro ⟨hn, -⟩
        exact absurd hr (hn r)
  | error e' =>
      have hn : ∀ r : Register, name ≠ r.name.toList := by
        intro r hr
        rw [register_eq_ok_iff_toList.mpr hr] at h
        cases h
      have he : e' = .unknownRegister (String.ofList name) := by
        unfold register at h
        split at h
        · cases h
        · exact (Except.error.inj h).symm
      simp only [unknownName, Except.error.injEq, he]
      exact ⟨fun h => ⟨hn, h.symm⟩, fun h => h.2.symm⟩

theorem ofSymbol?_eq_none_iff {symbol : List Char} (h : Operator symbol) :
    Comparison.ofSymbol? (String.ofList (symbol.map Char.toLower)) = none ↔
      ∀ c, ¬ ComparisonText symbol c := by
  simp only [Option.eq_none_iff_forall_ne_some, ne_eq, Comparison.ofSymbol?_eq_some_iff]
  constructor
  · intro hn c hc
    exact hn c hc.symbol_eq
  · intro hn c hc
    exact hn c (comparisonText_of_symbol_eq h hc)

theorem PartsText.operator {text a symbol b : List Char} (h : PartsText text a symbol b) :
    Operator symbol := by
  obtain ⟨-, -, -, ho, -⟩ := h
  exact ho

/-- A text comes apart in one way only, so a check of its parts is a check of these. -/
theorem PartsText.checkParts_iff {text a symbol b : List Char} (h : PartsText text a symbol b)
    {check : List Char → List Char → List Char → Check} {e : AssemblyError} :
    checkParts text check e ↔ check a symbol b e := by
  constructor
  · rintro ⟨a', symbol', b', h', hc⟩
    have hparts := (conditionParts?_eq_some_iff.mpr h).symm.trans
      (conditionParts?_eq_some_iff.mpr h')
    simp only [Option.some.injEq, Prod.mk.injEq] at hparts
    obtain ⟨rfl, rfl, rfl⟩ := hparts
    exact hc
  · intro hc
    exact ⟨a, symbol, b, h, hc⟩

theorem settles_condition_of_parts {text a symbol b : List Char} (h : PartsText text a symbol b) :
    Settles (conditionChecks text) (condition text) := by
  intro e
  have hm : ∀ e, ¬ malformedCondition text e := fun e hm => hm.1 ⟨a, symbol, b, h⟩
  simp only [conditionChecks, firstFailing_cons_iff, h.checkParts_iff, hm, not_firstFailing_nil,
    ← register_eq_error_iff, condition, conditionParts?_eq_some_iff.mpr h]
  cases hs : Comparison.ofSymbol? (String.ofList (symbol.map Char.toLower)) with
  | none =>
      have hc := (ofSymbol?_eq_none_iff h.operator).mp hs
      simp [unknownOperator, hc, eq_comm]
  | some c =>
      have hc : ¬ ∀ c, ¬ ComparisonText symbol c := by
        rw [← ofSymbol?_eq_none_iff h.operator, hs]
        exact Option.some_ne_none c
      cases register a with
      | error e' => simp [unknownOperator, hc]
      | ok ra => cases register b <;> simp [unknownOperator, hc]

theorem settles_condition (text : List Char) :
    Settles (conditionChecks text) (condition text) := by
  by_cases h : ∃ a symbol b, PartsText text a symbol b
  · obtain ⟨a, symbol, b, hp⟩ := h
    exact settles_condition_of_parts hp
  · intro e
    have hnone : conditionParts? text = none := by
      rw [Option.eq_none_iff_forall_ne_some]
      rintro ⟨a, symbol, b⟩ hp
      exact h ⟨a, symbol, b, conditionParts?_eq_some_iff.mp hp⟩
    have hparts : ∀ check, ¬ checkParts text check e := by
      rintro check ⟨a, symbol, b, hp, -⟩
      exact h ⟨a, symbol, b, hp⟩
    rw [condition, hnone]
    constructor
    · intro he
      exact .here ⟨h, (Except.error.inj he).symm⟩
    · intro hf
      obtain ⟨check, hm, hc⟩ := hf.exists_check
      simp only [conditionChecks, List.mem_cons, List.not_mem_nil, or_false] at hm
      rcases hm with rfl | rfl | rfl | rfl
      · rw [hc.2]
      all_goals exact absurd hc (hparts _)

/-- Two names in brackets behind the word for memory. -/
def cellText (key index : List Char) : List Char :=
  cellWord ++ '[' :: (key ++ '/' :: (index ++ [']']))

/-- The error of a token that is no operand. A dollar sign at its front, or the word for memory,
decides what the rest should have been; the key is looked up before the index. -/
inductive OperandFault : List Char → Check
  | tooManyDigits {digits : List Char} :
      2 ≤ digits.length → (∀ d ∈ digits, isHexDigit d = true) →
      OperandFault ('$' :: digits) (.constantOutOfRange (String.ofList ('$' :: digits)))
  | noDigits {digits : List Char} :
      digits = [] ∨ (∃ d ∈ digits, isHexDigit d = false) →
      OperandFault ('$' :: digits) (.malformedOperand (String.ofList ('$' :: digits)))
  | noNames {rest : List Char} :
      (∀ key index, Name key → Name index → cellWord ++ rest ≠ cellText key index) →
      OperandFault (cellWord ++ rest) (.malformedOperand (String.ofList (cellWord ++ rest)))
  | unknownKey {key index : List Char} {e : AssemblyError} :
      Name key → Name index → unknownName key e → OperandFault (cellText key index) e
  | illegalKey {key : Register} {index : List Char} :
      Name index → key = .zero ∨ key = .px →
      OperandFault (cellText key.name.toList index)
        (.illegalKey (String.ofList (cellText key.name.toList index)) key)
  | unknownIndex {key : Register} {index : List Char} {e : AssemblyError} :
      key ≠ .zero → key ≠ .px → Name index → unknownName index e →
      OperandFault (cellText key.name.toList index) e
  | noRegister {token : List Char} {e : AssemblyError} :
      (∀ digits, token ≠ '$' :: digits) → (∀ rest, token ≠ cellWord ++ rest) →
      (∀ c ∈ token, isNameChar c = true) → unknownName token e → OperandFault token e
  | noName {token : List Char} :
      (∀ digits, token ≠ '$' :: digits) → (∀ rest, token ≠ cellWord ++ rest) →
      (∃ c ∈ token, isNameChar c = false) →
      OperandFault token (.malformedOperand (String.ofList token))

theorem constant_of_tooManyDigits {digits : List Char} (token : List Char)
    (hl : 2 ≤ digits.length) (hd : ∀ d ∈ digits, isHexDigit d = true) :
    constant digits token = .error (.constantOutOfRange (String.ofList token)) := by
  have hne : digits ≠ [] := by
    rintro rfl
    simp at hl
  have hv : (digits.filterMap hexValue?).length = digits.length := by
    rw [List.length_filterMap_eq_countP, List.countP_eq_length]
    exact hd
  rw [constant, if_pos ⟨hne, List.all_eq_true.mpr hd⟩]
  split
  · rename_i value hvalue
    rw [hvalue, List.length_singleton] at hv
    omega
  · rfl

theorem constant_of_noDigits {digits : List Char} (token : List Char)
    (h : digits = [] ∨ ∃ d ∈ digits, isHexDigit d = false) :
    constant digits token = .error (.malformedOperand (String.ofList token)) := by
  have hn : ¬ (digits ≠ [] ∧ digits.all isHexDigit = true) := by
    rintro ⟨hne, hall⟩
    rcases h with h | ⟨d, hm, hd⟩
    · exact hne h
    · rw [List.all_eq_true.mp hall d hm] at hd
      cases hd
  rw [constant, if_neg hn]

theorem indirect_of_noNames {rest : List Char} (token : List Char)
    (h : ∀ key index, Name key → Name index → cellWord ++ rest ≠ cellText key index) :
    indirect rest token = .error (.malformedOperand (String.ofList token)) := by
  have hn : bracketedNames? rest = none := by
    rw [Option.eq_none_iff_forall_ne_some]
    rintro ⟨key, index⟩ hp
    obtain ⟨hk, hx, rfl⟩ := bracketedNames?_eq_some_iff.mp hp
    exact h key index hk hx rfl
  rw [indirect, hn]

/-- Behind two names it only matters what they name. -/
theorem operand_cellText {key index : List Char} (hk : Name key) (hx : Name index) :
    operand (cellText key index) = do
      let k ← keyRegister key (cellText key index)
      let x ← register index
      return .indirect k x := by
  simp only [cellText, operand_of_cellWord, indirect,
    bracketedNames?_eq_some_iff.mpr ⟨hk, hx, rfl⟩]
  cases keyRegister key _ with
  | error e => rfl
  | ok k => cases register index <;> rfl

theorem OperandFault.operand_eq {token : List Char} {e : AssemblyError} (h : OperandFault token e) :
    operand token = .error e := by
  cases h with
  | @tooManyDigits digits hl hd =>
      have hz : digits ≠ ['0'] := by
        rintro rfl
        simp at hl
      rw [operand_of_dollar hz, constant_of_tooManyDigits _ hl hd]
  | @noDigits digits hd =>
      have hz : digits ≠ ['0'] := by
        rintro rfl
        rcases hd with hd | ⟨d, hm, hd⟩
        · cases hd
        · rw [List.mem_singleton.mp hm] at hd
          exact absurd hd (by decide)
      rw [operand_of_dollar hz, constant_of_noDigits _ hd]
  | noNames hn => rw [operand_of_cellWord, indirect_of_noNames _ hn]
  | unknownKey hk hx he =>
      simp only [operand_cellText hk hx, keyRegister, register_eq_error_iff.mpr he, bind,
        Except.bind]
  | @illegalKey key index hx hk =>
      simp only [operand_cellText (name_register key) hx, keyRegister,
        register_eq_ok_iff_toList.mpr rfl, if_pos hk, bind, Except.bind]
  | @unknownIndex key index _ hz hp hx he =>
      simp only [operand_cellText (name_register key) hx,
        keyRegister_eq_ok_iff.mpr ⟨rfl, hz, hp⟩, register_eq_error_iff.mpr he, bind, Except.bind]
  | noRegister hd hc hall he =>
      rw [operand_of_other hd hc he.1, if_pos (List.all_eq_true.mpr hall), he.2]
  | noName hd hc hn =>
      obtain ⟨c, hm, hc'⟩ := hn
      have hr : ∀ r : Register, token ≠ r.name.toList := by
        rintro r rfl
        rw [(name_register r).2 c hm] at hc'
        cases hc'
      have hall : ¬ token.all isNameChar = true := by
        intro hall
        rw [List.all_eq_true.mp hall c hm] at hc'
        cases hc'
      rw [operand_of_other hd hc hr, if_neg hall]

/-- A single digit behind the sign is a constant, or the name of the first register. -/
theorem exists_operandFault_dollar {digits : List Char} (h : ∀ o, ¬ OperandText ('$' :: digits) o) :
    ∃ e, OperandFault ('$' :: digits) e := by
  by_cases hd : digits = [] ∨ ∃ d ∈ digits, isHexDigit d = false
  · exact ⟨_, .noDigits hd⟩
  · simp only [not_or, not_exists, not_and, Bool.not_eq_false] at hd
    obtain ⟨hne, hall⟩ := hd
    match digits with
    | [] => exact absurd rfl hne
    | _ :: _ :: _ => exact ⟨_, .tooManyDigits (by simp) hall⟩
    | [d] =>
        obtain ⟨n, hn⟩ := isHexDigit_iff.mp (hall d (by simp))
        by_cases hz : n = 0
        · subst hz
          obtain ⟨-, rfl | rfl⟩ := hn <;> exact absurd (.register .zero) (h _)
        · exact absurd (.constant hn hz) (h _)

theorem not_operandText_cellText {key index : List Char}
    (h : ∀ o, ¬ OperandText (cellText key index) o) (k x : Register) (hz : k ≠ .zero)
    (hp : k ≠ .px) : ¬ (key = k.name.toList ∧ index = x.name.toList) := by
  rintro ⟨rfl, rfl⟩
  have ho := OperandText.indirect x hz hp
  rw [indirect_text] at ho
  exact h _ ho

theorem exists_operandFault_cellText {key index : List Char} (hk : Name key) (hx : Name index)
    (h : ∀ o, ¬ OperandText (cellText key index) o) : ∃ e, OperandFault (cellText key index) e := by
  by_cases hkey : ∃ k : Register, key = k.name.toList
  · obtain ⟨k, rfl⟩ := hkey
    by_cases hl : k = .zero ∨ k = .px
    · exact ⟨_, .illegalKey hx hl⟩
    · simp only [not_or] at hl
      have hindex : ∀ x : Register, index ≠ x.name.toList := fun x hx' =>
        not_operandText_cellText h k x hl.1 hl.2 ⟨rfl, hx'⟩
      exact ⟨_, .unknownIndex hl.1 hl.2 hx ⟨hindex, rfl⟩⟩
  · exact ⟨_, .unknownKey hk hx ⟨not_exists.mp hkey, rfl⟩⟩

/-- A token is an operand or it has a fault. -/
theorem exists_operandFault {token : List Char} (h : ∀ o, ¬ OperandText token o) :
    ∃ e, OperandFault token e := by
  by_cases hd : ∃ digits, token = '$' :: digits
  · obtain ⟨digits, rfl⟩ := hd
    exact exists_operandFault_dollar h
  by_cases hc : ∃ rest, token = cellWord ++ rest
  · obtain ⟨rest, rfl⟩ := hc
    by_cases hn : ∃ key index, Name key ∧ Name index ∧ cellWord ++ rest = cellText key index
    · obtain ⟨key, index, hk, hx, he⟩ := hn
      rw [he] at h ⊢
      exact exists_operandFault_cellText hk hx h
    · simp only [not_exists, not_and] at hn
      exact ⟨_, .noNames hn⟩
  simp only [not_exists] at hd hc
  by_cases hall : ∀ c ∈ token, isNameChar c = true
  · have hr : ∀ r : Register, token ≠ r.name.toList := by
      rintro r rfl
      exact h _ (.register r)
    exact ⟨_, .noRegister hd hc hall ⟨hr, rfl⟩⟩
  · exact ⟨_, .noName hd hc (by simpa using hall)⟩

theorem operand_eq_error_iff {token : List Char} {e : AssemblyError} :
    operand token = .error e ↔ OperandFault token e := by
  constructor
  · intro h
    have hn : ∀ o, ¬ OperandText token o := by
      intro o ho
      rw [operand_eq_ok_iff.mpr ho] at h
      cases h
    obtain ⟨e', hf⟩ := exists_operandFault hn
    rw [hf.operand_eq] at h
    cases h
    exact hf
  · exact OperandFault.operand_eq

theorem settles_operand (token : List Char) : Settles [OperandFault token] (operand token) :=
  settles_one fun _ => operand_eq_error_iff

end KeyIndexMachine.Assembly
