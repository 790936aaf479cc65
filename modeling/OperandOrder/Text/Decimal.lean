/-!
# Decimal numbers

A number is read from one or more digits, after a plus sign or none, and has to stay within a limit.
-/

namespace OperandOrder.Text

/-- The value of a decimal digit. -/
def digitValue (d : Char) : Nat := d.toNat - '0'.toNat

/-- The value of a sequence of decimal digits. -/
def digitsValue (ds : List Char) : Nat := ds.foldl (fun v d => 10 * v + digitValue d) 0

/-- What follows a plus sign; all of it if there is none. -/
def dropPlus : List Char → List Char
  | '+' :: ds => ds
  | ds => ds

/-- **The number a text denotes,** if it is a number within the limit. -/
def decimal? (limit : Nat) (cs : List Char) : Option Nat :=
  let ds := dropPlus cs
  if ds ≠ [] ∧ ds.all Char.isDigit ∧ digitsValue ds ≤ limit then some (digitsValue ds) else none

end OperandOrder.Text
