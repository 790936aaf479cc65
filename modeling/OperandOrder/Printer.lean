import OperandOrder.Expr

/-!
# Printing an expression

`print` writes a tree back as one line of text. Spacing is fixed: one space on either side of a
binary operator and of the marks of a conditional, a comma and a space between arguments, none
around a dot or after a unary operator. The one exception is `- -a` and `+ +a`, where a space keeps
two signs apart.

Parentheses in the tree are always printed. Besides, a child is wrapped where its operator binds too
loosely for its place (`Position.wraps`), so that the text groups the way the tree does even when
operands have been moved.

Output is a list of fragments first, each a text or a single space; `Fragment.layout` puts them
together.
-/

namespace OperandOrder

/-- The place of a child under its parent. -/
inductive Position where
  /-- Before `.name` or `.name(args)`. -/
  | receiver
  /-- After a unary operator. -/
  | unaryOperand
  /-- Under a binary operator or in a chain. -/
  | operand (parent : BinaryOp) (leftmost : Bool)
  /-- Before the question mark of a conditional. -/
  | condition
  deriving DecidableEq, Repr

/-- **Whether a child of this form has to stand in parentheses.** A leftmost operand under the
parent's own operator would be taken into the parent's chain, so it is wrapped as well. -/
def Position.wraps : Position → Form → Bool
  | .receiver, .infixed _ | .receiver, .conditional | .receiver, .unary _ => true
  | .unaryOperand, .infixed _ | .unaryOperand, .conditional => true
  | .operand parent leftmost, .infixed op =>
    -- looser than the parent, or of its level and not where it would be read anyway
    parent.level < op.level || (op.level == parent.level && (!leftmost || op == parent))
  | .operand _ _, .conditional => true
  | .condition, .conditional => true
  | _, _ => false

/-- Whether a child has to stand in parentheses at a position. -/
def Expr.needsParens (e : Expr) (position : Position) : Bool := position.wraps e.form

/-- **A piece of output.** -/
inductive Fragment where
  | text (s : String)
  | space
  deriving DecidableEq, Repr

namespace Fragment

def chars : Fragment → List Char
  | .text s => s.toList
  | .space => [' ']

/-- The pieces put together. -/
def layout (fragments : List Fragment) : String := String.ofList (fragments.flatMap chars)

/-- Puts parentheses around the output of a child if its position asks for them. -/
def wrap (position : Position) (form : Form) (inner : List Fragment) : List Fragment :=
  if position.wraps form then .text "(" :: inner ++ [.text ")"] else inner

end Fragment

namespace Expr

/-- A space where two equal signs would meet. -/
def signGap (op : UnaryOp) (operand : Form) : List Fragment :=
  if op.doubles && operand == .unary op then [.space] else []

mutual

/-- **The output of a tree,** piece by piece. -/
def fragments : Expr → List Fragment
  | .absent => []
  | .error _ => [.text "/* error */"]
  | .literal _ _ text => [.text text]
  | .ident _ name => [.text name]
  | .call _ receiver name args =>
    (match receiver with
      -- a plain call
      | .absent => []
      | _ => Fragment.wrap .receiver receiver.form receiver.fragments ++ [.text "."]) ++
      .text name :: .text "(" :: argumentFragments true args ++ [.text ")"]
  | .field _ receiver name =>
    Fragment.wrap .receiver receiver.form receiver.fragments ++ [.text ".", .text name]
  | .unary _ op operand =>
    .text op.symbol :: signGap op operand.form ++
      Fragment.wrap .unaryOperand operand.form operand.fragments
  | .paren _ inner => .text "(" :: inner.fragments ++ [.text ")"]
  | .binary _ op left right =>
    Fragment.wrap (.operand op true) left.form left.fragments ++
      [.space, .text op.symbol, .space] ++
      Fragment.wrap (.operand op false) right.form right.fragments
  | .chain _ op operands => operandFragments op true operands
  | .conditional _ cond yes no =>
    Fragment.wrap .condition cond.form cond.fragments ++ [.space, .text "?", .space] ++
      yes.fragments ++ [.space, .text ":", .space] ++ no.fragments

/-- The operands of a chain with the operator between them. -/
def operandFragments (op : BinaryOp) (leftmost : Bool) : List Expr → List Fragment
  | [] => []
  | e :: es =>
    (if leftmost then [] else [.space, .text op.symbol, .space]) ++
      Fragment.wrap (.operand op leftmost) e.form e.fragments ++ operandFragments op false es

/-- The arguments of a call with commas between them. -/
def argumentFragments (first : Bool) : List Expr → List Fragment
  | [] => []
  | e :: es =>
    (if first then [] else [.text ",", .space]) ++ e.fragments ++ argumentFragments false es

end

/-- **The text of a tree.** -/
def print (e : Expr) : String := Fragment.layout e.fragments

end Expr

end OperandOrder
