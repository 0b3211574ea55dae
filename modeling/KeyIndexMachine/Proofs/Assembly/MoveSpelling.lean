import KeyIndexMachine.Proofs.Assembly.Diagnosis
import KeyIndexMachine.Proofs.Assembly.Image

/-!
# Moving is adding to register zero

`mov D, B` is another spelling of `add D, $0, B`. The two lines come to the same word or to the same
error, whatever stands in the place of the operands and of the condition, since the mnemonic is
looked at after the condition and before the operands, and both leave the same tokens to be read.

What is listed for such a word is the first spelling of the two, tidied: no blanks in the condition,
one space behind it, and the digits of constants and comparisons as small letters.
-/
namespace KeyIndexMachine

namespace Assembly

/-- The character behind a question mark or a dollar sign, which is a digit if anything, becomes a
small letter. -/
def smallDigits : List Char → List Char
  | [] => []
  | [c] => [c]
  | c :: d :: cs =>
      if c = '?' ∨ c = '$' then c :: d.toLower :: smallDigits cs else c :: smallDigits (d :: cs)

def withoutBlanks (cs : List Char) : List Char := cs.filter (!isBlank ·)

theorem smallDigits_cons_of_ne {c : Char} (hq : c ≠ '?') (hd : c ≠ '$') (cs : List Char) :
    smallDigits (c :: cs) = c :: smallDigits cs := by
  cases cs with
  | nil => rfl
  | cons d cs => rw [smallDigits, if_neg (by simp [hq, hd])]

/-- Register names have no letter behind a dollar sign, so they stay as they are. -/
theorem smallDigits_name_append (r : Register) (cs : List Char) :
    smallDigits (r.name.toList ++ cs) = r.name.toList ++ smallDigits cs := by
  cases r with
  | zero => rfl
  | _ => simp [Register.name, smallDigits_cons_of_ne]

theorem smallDigits_name (r : Register) : smallDigits r.name.toList = r.name.toList := by
  simpa [smallDigits] using smallDigits_name_append r []

theorem OperandText.smallDigits_eq {cs : List Char} {o : Operand} (h : OperandText cs o) :
    smallDigits cs = o.text.toList := by
  cases h with
  | register r => exact smallDigits_name r
  | @constant d n hd hn =>
      have hv : n % 256 = n := Nat.mod_eq_of_lt (by have := hd.1; omega)
      simp [smallDigits, Operand.text, hexNat_of_lt, hd.toLower, hd.1, hv]
  | @indirect k x _ _ =>
      simp [Operand.text, smallDigits_cons_of_ne, smallDigits_name_append, smallDigits]

theorem ComparisonText.smallDigits_append {symbol : List Char} {c : Comparison}
    (h : ComparisonText symbol c) (cs : List Char) :
    smallDigits (symbol ++ cs) = c.symbol.toList ++ smallDigits cs := by
  cases h with
  | reserved n hd =>
      simp [smallDigits, Comparison.symbol, hexNat_of_lt hd.1, hd.toLower]
  | _ => simp [Comparison.symbol, smallDigits_cons_of_ne]

theorem withoutBlanks_append (a b : List Char) :
    withoutBlanks (a ++ b) = withoutBlanks a ++ withoutBlanks b := List.filter_append _ _

theorem Blanks.withoutBlanks_eq {cs : List Char} (h : Blanks cs) : withoutBlanks cs = [] := by
  rw [withoutBlanks, List.filter_eq_nil_iff]
  intro c hc
  simp [blanks_iff.mp h c hc]

theorem withoutBlanks_of_class {cs : List Char} {p : Char → Bool} (hs : p ' ' = false)
    (ht : p '\t' = false) (h : ∀ c ∈ cs, p c = true) : withoutBlanks cs = cs := by
  rw [withoutBlanks, List.filter_eq_self]
  intro c hc
  simp [not_isBlank_of_class hs ht (h c hc)]

theorem ComparisonText.withoutBlanks_eq {symbol : List Char} {c : Comparison}
    (h : ComparisonText symbol c) : withoutBlanks symbol = symbol := by
  cases h with
  | @reserved d n hd =>
      have hc : ∀ e ∈ ['?', d], isOperandChar e = true :=
        List.forall_mem_cons.mpr ⟨by decide, List.forall_mem_singleton.mpr hd.isOperandChar⟩
      exact withoutBlanks_of_class (by decide) (by decide) hc
  | _ => rfl

/-- The text of a condition that was read is what stood there, tidied. -/
theorem ConditionText.tidy_eq {cs : List Char} {c : Condition} (h : ConditionText cs c) :
    c.text.toList = conditionalOpening ++ (smallDigits (withoutBlanks cs) ++ [')']) := by
  obtain ⟨a, b, hs, ht, hu, hv, hc⟩ := h
  have hname : ∀ r : Register, withoutBlanks r.name.toList = r.name.toList := fun r =>
    withoutBlanks_of_class (by decide) (by decide) (register_chars r)
  simp only [withoutBlanks_append, hs.withoutBlanks_eq, ht.withoutBlanks_eq, hu.withoutBlanks_eq,
    hv.withoutBlanks_eq, hname, hc.withoutBlanks_eq, List.nil_append, List.append_nil,
    List.append_assoc, smallDigits_name_append, hc.smallDigits_append, smallDigits_name]
  simp [Condition.text, conditionalOpening]

theorem ConditionText.ne_always {cs : List Char} {c : Condition} (h : ConditionText cs c) :
    c.comparison ≠ .always := by
  obtain ⟨_, _, -, -, -, -, hc⟩ := h
  cases hc <;> nofun

def movLine (inside : Option (List Char)) (d b : List Char) : Line := ⟨inside, "mov".toList, [d, b]⟩

def addLine (inside : Option (List Char)) (d b : List Char) : Line :=
  ⟨inside, "add".toList, [d, Register.zero.name.toList, b]⟩

/-- Both leave the same tokens to be read, so whatever comes of the one comes of the other. -/
theorem instruction_movLine (inside : Option (List Char)) (d b : List Char) :
    (movLine inside d b).instruction = (addLine inside d b).instruction := by
  have hmov : (movLine inside d b).shape = .ok ⟨.add, d, Register.zero.name.toList, b⟩ :=
    shape_eq_ok_iff.mpr (.inr ⟨rfl, rfl, rfl, rfl⟩)
  have hadd : (addLine inside d b).shape = .ok ⟨.add, d, Register.zero.name.toList, b⟩ :=
    shape_eq_ok_iff.mpr (.inl ⟨rfl, rfl⟩)
  have hcondition : (movLine inside d b).conditionOf = (addLine inside d b).conditionOf := by
    simp only [movLine, addLine, Line.conditionOf]
  rw [Line.instruction, Line.instruction, hmov, hadd, hcondition]

end Assembly

/-- A conditional with the space behind it, or nothing. -/
def opening : Option String → String
  | none => ""
  | some inside => "if(" ++ inside ++ ") "

def tidyOperand (token : String) : String := String.ofList (Assembly.smallDigits token.toList)

def tidyCondition (text : String) : String :=
  String.ofList (Assembly.smallDigits (Assembly.withoutBlanks text.toList))

namespace Assembly

section
variable {inside : Option String} {d b : String}

theorem frontText_opening (hi : ∀ x ∈ inside, x ≠ "" ∧ ')' ∉ x.toList) :
    FrontText (opening inside).toList (inside.map String.toList) := by
  cases inside with
  | none => exact .none
  | some x =>
      obtain ⟨hne, hp⟩ := hi x rfl
      have hne' : x.toList ≠ [] := by simpa using hne
      simpa [opening, conditionalOpening] using FrontText.some hne' hp blanks_space

theorem lineText_mov (hi : ∀ x ∈ inside, x ≠ "" ∧ ')' ∉ x.toList) (hd : Bare d.toList)
    (hb : Bare b.toList) : LineText (opening inside ++ "mov " ++ d ++ ", " ++ b).toList
      (movLine (inside.map String.toList) d.toList b.toList) := by
  have hoperands := OperandsText.some blanks_space (by simp) hd.token
    (.cons blanks_nil blanks_space hb.token .nil)
  simpa [movLine] using LineText.intro (frontText_opening hi) letters_mov hoperands

theorem lineText_add (hi : ∀ x ∈ inside, x ≠ "" ∧ ')' ∉ x.toList) (hd : Bare d.toList)
    (hb : Bare b.toList) : LineText (opening inside ++ "add " ++ d ++ ", $0, " ++ b).toList
      (addLine (inside.map String.toList) d.toList b.toList) := by
  have hzero : Token Register.zero.name.toList := (OperandText.register .zero).token
  have hoperands := OperandsText.some blanks_space (by simp) hd.token
    (.cons blanks_nil blanks_space hzero (.cons blanks_nil blanks_space hb.token .nil))
  simpa [addLine, Register.name, Operation.name] using
    LineText.intro (frontText_opening hi) (letters_operation .add) hoperands

end

/-- The condition in front of an instruction that was read, with the space behind it. -/
theorem front_eq_opening {inside : Option String} {mnemonic : List Char}
    {tokens : List (List Char)} {i : Instruction}
    (h : Line.conditionOf ⟨inside.map String.toList, mnemonic, tokens⟩ = .ok i.condition) :
    i.front = opening (inside.map tidyCondition) := by
  cases inside with
  | none =>
      have hc : Condition.always = i.condition := Except.ok.inj h
      simp [Instruction.front, Instruction.isConditional, ← hc, Condition.always, opening]
  | some x =>
      have hc := condition_eq_ok_iff_conditionText.mp h
      have hi : i.isConditional = true := by simp [Instruction.isConditional, hc.ne_always]
      rw [Instruction.front, if_pos hi]
      apply String.toList_inj.mp
      simp [hc.tidy_eq, opening, tidyCondition, conditionalOpening]

/-- What is read from the first spelling is written as that spelling, tidied. -/
theorem text_of_movLine {inside : Option String} {d b : String} {i : Instruction}
    (h : (movLine (inside.map String.toList) d.toList b.toList).instruction = .ok i) :
    i.text = opening (inside.map tidyCondition) ++ "mov " ++ tidyOperand d ++ ", " ++
      tidyOperand b := by
  obtain ⟨hc, s, hs, hop, hd, ha, hb⟩ := instruction_eq_ok_iff.mp h
  have hshape : (movLine (inside.map String.toList) d.toList b.toList).shape =
      .ok ⟨.add, d.toList, Register.zero.name.toList, b.toList⟩ :=
    shape_eq_ok_iff.mpr (.inr ⟨rfl, rfl, rfl, rfl⟩)
  cases hshape.symm.trans hs
  have hsource : i.sourceA = .register .zero := ha.unique (.register .zero)
  have hmov : i.isMov = true := by simp [Instruction.isMov, Instruction.operation?, hop, hsource]
  have hdestination : tidyOperand d = i.destination.text := by
    rw [tidyOperand, hd.1.smallDigits_eq, String.ofList_toList]
  have hsourceB : tidyOperand b = i.sourceB.text := by
    rw [tidyOperand, hb.smallDigits_eq, String.ofList_toList]
  rw [Instruction.text_eq_front_append, front_eq_opening hc, Instruction.body, if_pos hmov,
    hdestination, hsourceB]
  simp only [String.append_assoc]

end Assembly

open Assembly in
/-- Moving and adding to register zero are assembled alike, to the same word or to the same error.
The text of the word is the line that moves, without blanks in its condition, with one space behind
it, and with small letters for digits. -/
theorem Word.ofLine_mov_eq_ofLine_add (inside : Option String) (d b : String)
    (hi : ∀ x ∈ inside, x ≠ "" ∧ ')' ∉ x.toList) (hd : Bare d.toList) (hb : Bare b.toList) :
    Word.ofLine (opening inside ++ "mov " ++ d ++ ", " ++ b) =
      Word.ofLine (opening inside ++ "add " ++ d ++ ", $0, " ++ b) ∧
    ∀ w, Word.ofLine (opening inside ++ "mov " ++ d ++ ", " ++ b) = .ok w →
      w.text = opening (inside.map tidyCondition) ++ "mov " ++ tidyOperand d ++ ", " ++
        tidyOperand b := by
  have hz : Bare Register.zero.name.toList := by decide
  have hmov := instruction_of_lineText (lineText_mov hi hd hb)
    (List.forall_mem_cons.mpr ⟨hd, List.forall_mem_singleton.mpr hb⟩)
  have hadd := instruction_of_lineText (lineText_add hi hd hb)
    (List.forall_mem_cons.mpr ⟨hd, List.forall_mem_cons.mpr ⟨hz, List.forall_mem_singleton.mpr hb⟩⟩)
  constructor
  · rw [Word.ofLine, Word.ofLine, word, word, hmov, hadd, instruction_movLine]
  · intro w h
    obtain ⟨i, hinstruction, rfl, hdenotable⟩ := exists_instruction_of_ofLine h
    rw [Instruction.ofLine, hmov] at hinstruction
    rw [Word.text, hdenotable.ofWord_toWord, text_of_movLine hinstruction]

open Assembly in
/-- The condition has a space and a tab in it, and all digits are capital letters. -/
theorem Word.ofLine_mov_eq_ofLine_add_conditional :
    Word.ofLine "if( r1 ?A\tDX) mov hashtable[AK/$0], $F" =
      Word.ofLine "if( r1 ?A\tDX) add hashtable[AK/$0], $0, $F" ∧
    Word.ofLine "if( r1 ?A\tDX) mov hashtable[AK/$0], $F" = .ok 0x1ADE0008FFF#64 ∧
    Word.text 0x1ADE0008FFF#64 = "if(r1?aDX) mov hashtable[AK/$0], $f" := by
  have h := Word.ofLine_mov_eq_ofLine_add (some " r1 ?A\tDX") "hashtable[AK/$0]" "$F"
    (by decide) (by decide) (by decide)
  have hw : Word.ofLine "if( r1 ?A\tDX) mov hashtable[AK/$0], $F" = .ok 0x1ADE0008FFF#64 := by
    with_unfolding_all rfl
  exact ⟨h.1, hw, h.2 _ hw⟩

end KeyIndexMachine
