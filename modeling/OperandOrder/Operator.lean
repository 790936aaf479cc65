/-!
# Operators

The nineteen binary operators with their symbols and binding levels, and the four unary ones.

A binary operator is *flippable* when its operands may trade places once the operator is replaced by
its `converse`: `a < b` becomes `b > a`, and `a + b` becomes `b + a`. The short-circuit operators
are not flippable, since a swap would change which operand is evaluated. The laws the rest of the
library leans on are `converse_converse`, `isFlippable_converse` and `level_converse`.
-/

namespace OperandOrder

/-- The binary operators, tightest level first. -/
inductive BinaryOp where
  | mul | div | rem
  | add | sub
  | shl | shr | ushr
  | lt | gt | le | ge
  | eq | ne
  | bitAnd
  | bitXor
  | bitOr
  | and
  | or
  deriving DecidableEq, Repr

/-- The unary operators, all written before their operand. -/
inductive UnaryOp where
  | neg | plus | not | bitNot
  deriving DecidableEq, Repr

namespace BinaryOp

/-- Every binary operator, tightest level first. -/
def all : List BinaryOp :=
  [.mul, .div, .rem, .add, .sub, .shl, .shr, .ushr, .lt, .gt, .le, .ge, .eq, .ne,
    .bitAnd, .bitXor, .bitOr, .and, .or]

/-- The operator as written. -/
def symbol : BinaryOp → String
  | .mul => "*"
  | .div => "/"
  | .rem => "%"
  | .add => "+"
  | .sub => "-"
  | .shl => "<<"
  | .shr => ">>"
  | .ushr => ">>>"
  | .lt => "<"
  | .gt => ">"
  | .le => "<="
  | .ge => ">="
  | .eq => "=="
  | .ne => "!="
  | .bitAnd => "&"
  | .bitXor => "^"
  | .bitOr => "|"
  | .and => "&&"
  | .or => "||"

/-- The operator with a given symbol. -/
def ofSymbol? (text : String) : Option BinaryOp := all.find? fun op => op.symbol == text

/-- **Binding level.** A smaller level binds tighter. -/
def level : BinaryOp → Nat
  | .mul | .div | .rem => 3
  | .add | .sub => 4
  | .shl | .shr | .ushr => 5
  | .lt | .gt | .le | .ge => 6
  | .eq | .ne => 7
  | .bitAnd => 8
  | .bitXor => 9
  | .bitOr => 10
  | .and => 11
  | .or => 12

/-- The levels in use, tightest first. -/
def levels : List Nat := [3, 4, 5, 6, 7, 8, 9, 10, 11, 12]

/-- Whether the operands may trade places once the operator becomes its converse. -/
def isFlippable : BinaryOp → Bool
  | .bitAnd | .bitOr | .bitXor | .eq | .ne | .add | .mul | .gt | .ge | .lt | .le => true
  | .div | .rem | .sub | .shl | .shr | .ushr | .and | .or => false

/-- **The converse operator:** `a op b` says what `b (converse op) a` says. -/
def converse : BinaryOp → BinaryOp
  | .gt => .lt
  | .lt => .gt
  | .ge => .le
  | .le => .ge
  | op => op

@[simp] theorem converse_converse (op : BinaryOp) : op.converse.converse = op := by
  cases op <;> rfl

@[simp] theorem isFlippable_converse (op : BinaryOp) :
    op.converse.isFlippable = op.isFlippable := by
  cases op <;> rfl

@[simp] theorem level_converse (op : BinaryOp) : op.converse.level = op.level := by
  cases op <;> rfl

theorem level_mem_levels (op : BinaryOp) : op.level ∈ levels := by
  cases op <;> decide

end BinaryOp

namespace UnaryOp

/-- Every unary operator. -/
def all : List UnaryOp := [.neg, .plus, .not, .bitNot]

/-- The operator as written. -/
def symbol : UnaryOp → String
  | .neg => "-"
  | .plus => "+"
  | .not => "!"
  | .bitNot => "~"

/-- The operator with a given symbol. -/
def ofSymbol? (text : String) : Option UnaryOp := all.find? fun op => op.symbol == text

/-- Whether writing the operator twice in a row would read as one sign (`--`, `++`). -/
def doubles : UnaryOp → Bool
  | .neg | .plus => true
  | .not | .bitNot => false

end UnaryOp

end OperandOrder
