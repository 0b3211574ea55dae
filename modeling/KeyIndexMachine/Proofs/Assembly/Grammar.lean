import KeyIndexMachine.Instruction
import KeyIndexMachine.Proofs.Assembly.Scanning

/-!
# The grammar of a line

What a line of assembly looks like and what it denotes, as relations between texts and instructions
that mention no scan, no token and no order of checks:

```text
line       ::= [ "if(" s* R s* C s* R s* ")" s* ] body
body       ::= ( "add" | "sub" ) s+ D s* "," s* O s* "," s* O  |  "mov" s+ D s* "," s* O
O          ::= R  |  "$" hex  |  "hashtable[" R "/" R "]"
```

Here `s` is a space or a tab, `R` a register name, `C` a comparison and `D` an operand that is not a
constant. The digit of a constant is not zero, since `$0` is a register, and the first name in
brackets is neither `$0` nor `PX`, since keys 0 and 8 mean something else.
-/
namespace KeyIndexMachine.Assembly

/-- A hexadecimal digit of this value, as a small or a capital letter from ten on. -/
def HexDigit (d : Char) (n : Nat) : Prop :=
  n < 16 ∧ (d = Nat.digitChar n ∨ d = (Nat.digitChar n).toUpper)

instance (d : Char) (n : Nat) : Decidable (HexDigit d n) := inferInstanceAs (Decidable (_ ∧ _))

inductive ComparisonText : List Char → Comparison → Prop
  | less : ComparisonText ['<'] .less
  | lessEqual : ComparisonText ['<', '='] .lessEqual
  | equal : ComparisonText ['=', '='] .equal
  | notEqual : ComparisonText ['!', '='] .notEqual
  | reserved {d : Char} (n : Fin 11) : HexDigit d (n.val + 3) →
      ComparisonText ['?', d] (.reserved n)

inductive OperandText : List Char → Operand → Prop
  | register (r : Register) : OperandText r.name.toList (.register r)
  | constant {d : Char} {n : Nat} : HexDigit d n → n ≠ 0 →
      OperandText ['$', d] (.constant (BitVec.ofNat 8 n))
  | indirect {k : Register} (x : Register) : k ≠ .zero → k ≠ .px →
      OperandText ("hashtable[".toList ++ k.name.toList ++ "/".toList ++ x.name.toList ++
        "]".toList) (.indirect k x)

/-- An operand that can be written to. -/
def DestinationText (cs : List Char) (o : Operand) : Prop :=
  OperandText cs o ∧ ∀ v, o ≠ .constant v

/-- What stands between the parentheses of a conditional. -/
inductive ConditionText : List Char → Condition → Prop
  | intro {s t u v symbol : List Char} {c : Comparison} (a b : Register) :
      Blanks s → Blanks t → Blanks u → Blanks v → ComparisonText symbol c →
      ConditionText (s ++ a.name.toList ++ t ++ symbol ++ u ++ b.name.toList ++ v) ⟨a, c, b⟩

/-- A conditional with the blanks after it, or nothing. -/
inductive ConditionalText : List Char → Condition → Prop
  | always : ConditionalText [] Condition.always
  | given {cs s : List Char} {c : Condition} : ConditionText cs c → Blanks s →
      ConditionalText ("if(".toList ++ cs ++ ")".toList ++ s) c

inductive BodyText : List Char → Operation → Operand → Operand → Operand → Prop
  | operation {s t u v w d a b : List Char} {D A B : Operand} (o : Operation) :
      Blanks s → s ≠ [] → DestinationText d D → Blanks t → Blanks u → OperandText a A →
      Blanks v → Blanks w → OperandText b B →
      BodyText (o.name.toList ++ s ++ d ++ t ++ ",".toList ++ u ++ a ++ v ++ ",".toList ++ w ++ b)
        o D A B
  | mov {s t u d b : List Char} {D B : Operand} :
      Blanks s → s ≠ [] → DestinationText d D → Blanks t → Blanks u → OperandText b B →
      BodyText ("mov".toList ++ s ++ d ++ t ++ ",".toList ++ u ++ b) .add D (.register .zero) B

inductive InstructionText : List Char → Instruction → Prop
  | intro {f g : List Char} {c : Condition} {o : Operation} {D A B : Operand} :
      ConditionalText f c → BodyText g o D A B → InstructionText (f ++ g) ⟨c, o.opcode, D, A, B⟩

end KeyIndexMachine.Assembly
