import OperandOrder.Json.Double
import OperandOrder.Text.Decimal

/-!
# The size of a number

A number that is written out in JSON is looked at for one thing only: whether it is too large to be
worked with. It is worked out in double precision from a significand below 2^64 and a power of ten.

The significand takes the digits one after the other, those before the point first. In either part
the digits from the first that no longer fits are left over: before the point each of them counts as
a power of ten, and after it they count for nothing. `Numeral.scaled` says what comes of it, and
`Numeral.isTooLarge` is the test.
-/

namespace OperandOrder.Json

/-- A number in parts: the digits before and after the point, and the exponent. -/
structure Numeral where
  whole : List Char
  fraction : List Char
  /-- Whether the exponent has a minus sign. -/
  negative : Bool
  exponent : List Char

/-- The number `significand * 10 ^ scale`. -/
structure Scaled where
  significand : Nat
  scale : Int
  deriving DecidableEq, Repr

namespace Scaled

/-- The bound of a significand. -/
def significandBound : Nat := Nat.pow 2 64

/-- The largest power of ten there is a double for. -/
def scaleLimit : Nat := 308

/-- **The magnitude in double precision,** for a scale that is not negative: the significand is
rounded, the power of ten is, and their product is. -/
def magnitude (significand scale : Nat) : Nat :=
  Double.mul (Double.round significand) (Double.round (Nat.pow 10 scale))

/-- Whether there is no double for the number. Zero is never too large, and neither is a significand
that is scaled down. -/
def isTooLarge (n : Scaled) : Bool :=
  if n.significand = 0 ∨ n.scale < 0 then false
  else if scaleLimit < n.scale then true
  else !Double.isFinite (magnitude n.significand n.scale.toNat)

end Scaled

namespace Numeral

/-- **Adds digits to a significand** as long as it stays within its bound; from the first that does
not fit, they are left over. -/
def extend (significand : Nat) : List Char → Nat × List Char
  | [] => (significand, [])
  | d :: ds =>
    let next := 10 * significand + Text.digitValue d
    if next < Scaled.significandBound then extend next ds else (significand, d :: ds)

/-- The power of ten that the exponent stands for. -/
def power (n : Numeral) : Int :=
  let value : Int := Text.digitsValue n.exponent
  if n.negative then -value else value

/-- **The number as it is worked with.** -/
def scaled (n : Numeral) : Scaled :=
  let whole := extend 0 n.whole
  let all := extend whole.1 n.fraction
  let places : Int := whole.2.length - (n.fraction.length - all.2.length)
  ⟨all.1, places + n.power⟩

/-- **Whether the number is too large.** -/
def isTooLarge (n : Numeral) : Bool := n.scaled.isTooLarge

end Numeral

end OperandOrder.Json
