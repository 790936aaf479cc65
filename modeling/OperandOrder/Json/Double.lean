/-!
# Whole numbers in double precision

A double keeps 53 significant bits. `Double.round` gives the whole number that a double keeps of a
natural number: the nearest one with that many bits, and of two that are equally near the one whose
last bit is zero. It has no upper end; `Double.isFinite` says which results there is a double for.

* `quotient_near`: dividing by a power of two is off by at most half a unit of the result.
* `quotient_even_of_tie`: where two results are equally near, the even one is taken.
* `round_eq_self`: a number of at most 53 bits is kept as it is.
-/

namespace OperandOrder.Json.Double

/-- The number of significant bits. -/
def precision : Nat := 53

/-- The least power of two that is too large. -/
def limit : Nat := Nat.pow 2 1024

/-- `n / 2 ^ k` as the nearest whole number, a half going to the even one. -/
def quotient (n k : Nat) : Nat :=
  let q := n / Nat.pow 2 k
  let r := n % Nat.pow 2 k
  if 2 * r < Nat.pow 2 k ∨ (2 * r = Nat.pow 2 k ∧ q % 2 = 0) then q else q + 1

/-- **The nearest number of 53 bits,** with as many zeros behind them as it takes. -/
def round (n : Nat) : Nat :=
  let k := n.log2 + 1 - precision
  quotient n k * Nat.pow 2 k

/-- The product of two doubles. -/
def mul (a b : Nat) : Nat := round (a * b)

/-- Whether there is a double for a rounded number. -/
def isFinite (n : Nat) : Bool := n < limit

/-- **The quotient is nearest:** it is off by at most half a unit. -/
theorem quotient_near (n k : Nat) :
    2 * (quotient n k * Nat.pow 2 k) ≤ 2 * n + Nat.pow 2 k ∧
      2 * n ≤ 2 * (quotient n k * Nat.pow 2 k) + Nat.pow 2 k := by
  have whole : Nat.pow 2 k * (n / Nat.pow 2 k) + n % Nat.pow 2 k = n := Nat.div_add_mod n _
  have small : n % Nat.pow 2 k < Nat.pow 2 k := Nat.mod_lt n (Nat.two_pow_pos k)
  simp only [quotient]
  split
  · rw [Nat.mul_comm (n / Nat.pow 2 k)]
    omega
  · rw [Nat.add_mul, Nat.mul_comm (n / Nat.pow 2 k)]
    omega

/-- Of two quotients that are equally near, the even one is taken. -/
theorem quotient_even_of_tie {n k : Nat} (h : 2 * (n % Nat.pow 2 k) = Nat.pow 2 k) :
    quotient n k % 2 = 0 := by
  simp only [quotient, h, Nat.lt_irrefl, true_and, false_or]
  split
  · assumption
  · omega

/-- What fits in the precision is not rounded. -/
theorem round_eq_self {n : Nat} (h : n < Nat.pow 2 precision) : round n = n := by
  have bits : n.log2 + 1 - precision = 0 := by
    by_cases zero : n = 0
    · subst zero
      rfl
    · have := (Nat.log2_lt zero).2 h
      omega
  have unit : Nat.pow 2 0 = 1 := rfl
  simp only [round, bits, quotient, unit, Nat.mod_one, Nat.div_one, Nat.mul_zero, Nat.zero_lt_one,
    true_or, if_true, Nat.mul_one]

end OperandOrder.Json.Double
