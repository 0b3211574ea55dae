import KeyIndexMachine.Assembly.Token
import KeyIndexMachine.Text.WhiteSpace

/-!
# Lines of assembly

A line, trimmed, is an optional conditional, a mnemonic, and operands with commas between them:

```text
[if(text)] mnemonic operand, operand, ...
```

Here it is only split into these parts. Whether the text of the conditional, the mnemonic and the
operands mean anything is not asked yet, but a line that does not split, or splits with something
left over, is refused already.
-/
namespace KeyIndexMachine.Assembly

structure Line where
  /-- What stands between the parentheses of the conditional. -/
  condition : Option (List Char)
  mnemonic : List Char
  operands : List (List Char)
  deriving DecidableEq, Repr

def conditionalOpening : List Char := ['i', 'f', '(']

/-- The text up to a closing parenthesis, not empty, and what follows the parenthesis. -/
def enclosed? (cs : List Char) : Option (List Char × List Char) :=
  match cs.takeWhile (· != ')'), cs.dropWhile (· != ')') with
  | c :: inside, _ :: rest => some (c :: inside, rest)
  | _, _ => none

/-- Takes a conditional off the front. An opening that is never closed is an error, not the start
of a mnemonic. -/
def splitConditional (cs : List Char) :
    Except AssemblyError (Option (List Char) × List Char) :=
  match conditionalOpening.isPrefixOf? cs with
  | none => .ok (none, cs)
  | some inside =>
      match enclosed? inside with
      | some (condition, rest) => .ok (some condition, skipBlanks rest)
      | none => .error (.malformedConditional (String.ofList (Text.firstWord cs)))

/-- What follows a comma, which may have blanks on both sides. -/
def afterComma? (cs : List Char) : Option (List Char) :=
  match skipBlanks cs with
  | ',' :: rest => some (skipBlanks rest)
  | _ => none

theorem length_lt_of_afterComma? {cs rest : List Char} (h : afterComma? cs = some rest) :
    rest.length < cs.length := by
  unfold afterComma? at h
  split at h
  · rename_i r hr
    cases h
    have hc := length_skipBlanks_le cs
    have hs := length_skipBlanks_le r
    simp only [hr, List.length_cons] at hc
    omega
  · cases h

/-- Operands that each follow a comma, and what is left. A comma without an operand behind it is
left, with the blanks in front of it. -/
def moreOperands (cs : List Char) : List (List Char) × List Char :=
  match _h : afterComma? cs with
  | none => ([], cs)
  | some rest =>
      match rest.takeWhile isTokenChar with
      | [] => ([], cs)
      | c :: token =>
          let more := moreOperands (rest.dropWhile isTokenChar)
          ((c :: token) :: more.1, more.2)
termination_by cs.length
decreasing_by
  have hl := length_lt_of_afterComma? _h
  have hd := (rest.dropWhile_suffix isTokenChar).length_le
  omega

/-- The operands of an instruction, which blanks separate from its mnemonic, and what is left. -/
def splitOperands (cs : List Char) : List (List Char) × List Char :=
  match cs.takeWhile isBlank with
  | [] => ([], cs)
  | _ :: _ =>
      let body := skipBlanks cs
      match body.takeWhile isTokenChar with
      | [] => ([], body)
      | c :: token =>
          let more := moreOperands (body.dropWhile isTokenChar)
          ((c :: token) :: more.1, more.2)

/-- Splits a line that carries no white space at its ends. -/
def Line.ofTrimmed (cs : List Char) : Except AssemblyError Line :=
  match splitConditional cs with
  | .error e => .error e
  | .ok (condition, rest) =>
      match rest.takeWhile Char.isAlpha with
      | [] => .error (.malformedInstruction (String.ofList cs))
      | c :: mnemonic =>
          let split := splitOperands (rest.dropWhile Char.isAlpha)
          match skipBlanks split.2 with
          | [] => .ok ⟨condition, c :: mnemonic, split.1⟩
          | left => .error (.trailingInput (String.ofList left))

def Line.ofChars (cs : List Char) : Except AssemblyError Line := Line.ofTrimmed (Text.trim cs)

end KeyIndexMachine.Assembly
