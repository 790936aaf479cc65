import OperandOrder.Expr

/-!
# Grouping operands by level

A text such as `a + b * c - d` is first read flat, as operands with operators between them, and
grouped afterwards. Grouping goes level by level, tightest first: `Flat.collapse k` turns every
stretch of operands joined by operators of level `k` into one operand, and `Flat.group` does so for
all levels.

Within a level, a run of one operator becomes one node, binary for two operands and a chain for
more. Another operator of the same level closes the run, which then is the leftmost operand of the
next one: `a + b - c - d` is the chain of `a + b`, `c` and `d` under `-`.
-/

namespace OperandOrder

/-- **Operands with operators between them,** not yet grouped. -/
structure Flat where
  head : Expr
  tail : List (BinaryOp × Expr)
  deriving Repr

/-- A run of operands under one operator, still open to more. -/
inductive Run where
  | single (e : Expr)
  | joined (op : BinaryOp) (first : Expr) (others : List Expr)
  deriving Repr

namespace Run

/-- The node a run makes; it spans from its first operand to its last. -/
def close : Run → Expr
  | .single e => e
  | .joined op first others =>
    .join (first.span.merge (others.getLastD first).span) op (first :: others)

/-- One more operand: it lengthens a run of the same operator and closes any other. -/
def extend (op : BinaryOp) (e : Expr) : Run → Run
  | .single first => .joined op first [e]
  | .joined op' first others =>
    if op' = op then .joined op first (others ++ [e])
    else .joined op (close (.joined op' first others)) [e]

end Run

namespace Flat

/-- Collapses one level, with a run already begun. -/
def collapseFrom (level : Nat) (run : Run) : List (BinaryOp × Expr) → Flat
  | [] => ⟨run.close, []⟩
  | (op, e) :: rest =>
    if op.level = level then collapseFrom level (run.extend op e) rest
    else
      let later := collapseFrom level (.single e) rest
      ⟨run.close, (op, later.head) :: later.tail⟩

/-- **One level:** every stretch joined by operators of this level becomes one operand. -/
def collapse (f : Flat) (level : Nat) : Flat := collapseFrom level (.single f.head) f.tail

/-- **The tree** of a flat sequence: all levels, tightest first. -/
def group (f : Flat) : Expr := (BinaryOp.levels.foldl collapse f).head

end Flat

end OperandOrder
