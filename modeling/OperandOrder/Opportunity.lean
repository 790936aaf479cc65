import OperandOrder.Canonical
import OperandOrder.RangeSet

/-!
# Opportunities

An opportunity is an infix node that its canonical form differs from. `Expr.opportunities` lists the
ranges to be shown for a tree: for each opportunity the span of its parent, or its own span at the
root, gathered in a `RangeSet`. It is empty exactly when putting the tree in canonical form changes
nothing.
-/

namespace OperandOrder

namespace Expr

/-- Whether this is an infix node that canonical form changes. -/
def isOpportunity (policy : Policy) (e : Expr) : Bool :=
  e.infixed?.isSome && (e.canonical policy).changed

/-- The span shown for a node under a parent, if the node is an opportunity. -/
def shownUnder (policy : Policy) (parent : Span) (e : Expr) : List Span :=
  if e.isOpportunity policy then [parent] else []

mutual

/-- **The spans to be shown** for a tree under a parent, parents before children, left to right. -/
def shown (policy : Policy) (parent : Span) : Expr → List Span
  | .absent | .error _ | .literal .. | .ident .. => []
  | .call s receiver _ args => receiver.shown policy s ++ shownAll policy s args
  | .field s receiver _ => receiver.shown policy s
  | .unary s _ operand => operand.shown policy s
  | .paren s inner => inner.shown policy s
  | .binary s op left right =>
    (binary s op left right).shownUnder policy parent ++ left.shown policy s ++ right.shown policy s
  | .chain s op operands =>
    (chain s op operands).shownUnder policy parent ++ shownAll policy s operands
  | .conditional s cond yes no =>
    cond.shown policy s ++ yes.shown policy s ++ no.shown policy s

/-- The same for several trees under one parent. -/
def shownAll (policy : Policy) (parent : Span) : List Expr → List Span
  | [] => []
  | e :: es => e.shown policy parent ++ shownAll policy parent es

end

/-- **The ranges where reordering would change something.** -/
def opportunities (policy : Policy) (e : Expr) : RangeSet := .ofList (e.shown policy e.span)

end Expr

/-! ### The rule as it is presented -/

/-- The name of the rule. -/
def ruleName : String := "Shortest operand first"

/-- What the rule does, in one line. -/
def ruleDescription : String :=
  "Make the shortest operand first in a binary commutative or semi-commutative operator"

end OperandOrder
