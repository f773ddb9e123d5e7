import CilCompiler.Text.Hex

/-!
Tables over character numbers, written compactly: numbers in base sixteen, one row a line.
-/

namespace CilCompiler.Text

/-- A table while it is read: finished rows and the current row, both last first, and the number being
    read. -/
structure TableReader where
  rows : List (List Nat) := []
  row : List Nat := []
  number : Option Nat := none

namespace TableReader

def endNumber (r : TableReader) : TableReader :=
  match r.number with
  | some n => { r with row := n :: r.row, number := none }
  | none => r

def endRow (r : TableReader) : TableReader :=
  let r := r.endNumber
  if r.row.isEmpty then r else { r with rows := r.row.reverse :: r.rows, row := [] }

def read (r : TableReader) (c : Char) : TableReader :=
  match hexDigit? c with
  | some d => { r with number := some (r.number.getD 0 * 16 + d) }
  | none => if c = '\n' ∨ c = ',' then r.endRow else r.endNumber

end TableReader

/-- The rows of a table: a comma or a line feed ends a row, any other character that is no digit ends a
    number. -/
def hexRows (s : String) : Array (List Nat) :=
  (s.foldl TableReader.read {}).endRow.rows.reverse.toArray

/-- The rows of a table that is given line by line. -/
def hexLines (lines : List String) : Array (List Nat) := (lines.toArray.map hexRows).flatten

/-- Whether `n` lies in one of the ranges of a table of one or two numbers a row. -/
def inRanges (table : Array (List Nat)) (n : Nat) : Bool :=
  table.any fun
    | [lo, hi] => lo ≤ n && n ≤ hi
    | [one] => one == n
    | _ => false

/-- The entry for `n` in a table of rows `first last value`: how far `n` is from the first number of its
    range, and the range's value. -/
def rangeValue? (table : Array (List Nat)) (n : Nat) : Option (Nat × Nat) :=
  table.findSome? fun
    | [lo, hi, v] => if lo ≤ n ∧ n ≤ hi then some (n - lo, v) else none
    | _ => none

end CilCompiler.Text
