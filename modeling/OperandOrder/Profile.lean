import OperandOrder.Expr

/-!
# Which operand is larger

A `Profile` is all that a comparison of two operands looks at: the form, the weight, and the length
of the text the operand was read from. `Profile.isLarger` compares two of them:

* an operand that outweighs the other by more than `Profile.threshold` is larger, and one that is
  outweighed so is not;
* of two calls of about the same weight, the one with more arguments is larger;
* otherwise the one with the longer text is.

Because of the threshold the comparison is not transitive. It is asymmetric (`isLarger_asymm`), and
a missing operand is neither larger nor smaller than anything.
-/

namespace OperandOrder

/-- **What a comparison sees of an operand.** -/
structure Profile where
  form : Form
  weight : Nat
  length : Nat
  deriving DecidableEq, Repr

/-- The profile of a tree. -/
def Expr.profile (e : Expr) : Profile := ⟨e.form, e.weight, e.span.length⟩

namespace Profile

/-- How much more an operand has to weigh before its weight alone makes it the larger one. -/
def threshold : Nat := 1

/-- **Whether `a` belongs after `b`.** -/
def isLarger (a b : Profile) : Bool :=
  if a.form.isMissing || b.form.isMissing then false
  else if threshold + b.weight < a.weight then true
  else if threshold + a.weight < b.weight then false
  else
    match a.form.args?, b.form.args? with
    | some m, some n => n < m
    | _, _ => b.length < a.length

theorem isLarger_asymm (a b : Profile) (h : a.isLarger b = true) : b.isLarger a = false := by
  unfold isLarger at h ⊢
  cases hx : a.form.args? <;> cases hy : b.form.args? <;> grind

end Profile

end OperandOrder
