import KeyIndexMachine.Word

/-!
# Tables of two columns

A table has a row of titles, a rule, rows and a closing rule. An entry may take several lines; the
other entry of its row is then filled up with empty ones. Each column is as wide as its widest
line, so all lines of a table are of one length, and a whole table can be an entry of another.
-/
namespace KeyIndexMachine.Text

inductive Alignment where
  | left
  | right
  deriving DecidableEq, Repr

/-- The two entries of a row, each by its lines. -/
structure Row where
  left : List String
  right : List String
  deriving DecidableEq, Repr

/-- The right column is always aligned to the left. -/
structure Table where
  alignment : Alignment
  titles : Row
  rows : List Row
  deriving DecidableEq, Repr

def Alignment.pad : Alignment → Nat → String → String
  | .left => padRight
  | .right => padLeft

def widest (entries : List String) : Nat := entries.foldl (fun n e => max n e.length) 0

namespace Table

def leftWidth (t : Table) : Nat := widest ((t.titles :: t.rows).flatMap Row.left)

def rightWidth (t : Table) : Nat := widest ((t.titles :: t.rows).flatMap Row.right)

def line (t : Table) (left right : String) : String :=
  "  " ++ t.alignment.pad t.leftWidth left ++ " │ " ++ padRight t.rightWidth right ++ "  "

/-- A rule; the joint is where it crosses the line between the columns. -/
def rule (t : Table) (joint : Char) : String :=
  String.ofList (' ' :: List.replicate (t.leftWidth + 2) '─' ++
    joint :: List.replicate (t.rightWidth + 2) '─' ++ [' '])

def rowLines (t : Table) (r : Row) : List String :=
  let height := max r.left.length r.right.length
  List.zipWith t.line (r.left.rightpad height "") (r.right.rightpad height "")

def lines (t : Table) : List String :=
  t.rowLines t.titles ++ t.rule '┼' :: t.rows.flatMap t.rowLines ++ [t.rule '┴']

end Table

end KeyIndexMachine.Text
