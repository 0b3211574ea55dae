import KeyIndexMachine.Assembly.Token
import KeyIndexMachine.Instruction

/-!
# Conditions in assembly

Two names with a comparison between them, and blanks wherever they do not cut one of the three in
two. The comparison is a question mark with one hexadecimal digit, in either case, or as many of
the characters `<>=!` as there are.
-/
namespace KeyIndexMachine.Assembly

/-- A comparison at the front, known or not, and what follows it. -/
def comparisonText? (cs : List Char) : Option (List Char × List Char) :=
  match cs with
  | '?' :: d :: rest => if isHexDigit d then some (['?', d], rest) else none
  | _ =>
      match cs.takeWhile isComparisonChar with
      | [] => none
      | c :: symbol => some (c :: symbol, cs.dropWhile isComparisonChar)

/-- A name at the front, blanks around it, and what follows them. -/
def paddedName? (cs : List Char) : Option (List Char × List Char) :=
  let body := skipBlanks cs
  match body.takeWhile isNameChar with
  | [] => none
  | c :: name => some (c :: name, skipBlanks (body.dropWhile isNameChar))

/-- The name, the comparison and the name that make up the text of a conditional. -/
def conditionParts? (cs : List Char) : Option (List Char × List Char × List Char) :=
  match paddedName? cs with
  | none => none
  | some (a, afterA) =>
      match comparisonText? afterA with
      | none => none
      | some (symbol, afterSymbol) =>
          match paddedName? afterSymbol with
          | some (b, []) => some (a, symbol, b)
          | _ => none

/-- The condition whose text stands between the parentheses. -/
def condition (text : List Char) : Except AssemblyError Condition :=
  match conditionParts? text with
  | none =>
      .error (.malformedConditional ("if(" ++ String.ofList text ++ ")"))
  | some (a, symbol, b) =>
      match Comparison.ofSymbol? (String.ofList (symbol.map Char.toLower)) with
      | none => .error (.unknownComparison (String.ofList symbol))
      | some c =>
          match register a, register b with
          | .error e, _ => .error e
          | _, .error e => .error e
          | .ok ra, .ok rb => .ok ⟨ra, c, rb⟩

end KeyIndexMachine.Assembly
