import OperandOrder.Operator
import OperandOrder.Span

/-!
# Expression trees

An `Expr` is the tree of one expression, every node with the span it was read from. Only the
distinctions that matter for ordering operands have a constructor of their own: literals by kind,
calls, binary nodes, and *chains*, which hold three or more operands of one operator side by side.
Parentheses, unary operators, field accesses and conditionals are kept so that a tree prints back to
the text it came from and so that operators below them are reached.

A child that is not there (the receiver of a plain call, or a hole in a hand-built tree) is
`absent`; an operand that a reader looked for in vain is `error`. Both are called *missing*.

Functions on trees come in pairs, one on a tree and one on a list of trees. `Form` is what a node
shows without looking below it, and `Expr.weight` is what the order of operands is measured by.
-/

namespace OperandOrder

/-- The kinds of literals. -/
inductive LiteralKind where
  | bool | null | str | char | number
  deriving DecidableEq, Repr

/-- **An expression.** Names and literals are held as written. -/
inductive Expr where
  /-- A child that is not there. -/
  | absent
  /-- An operand that was looked for and not found. -/
  | error (span : Span)
  | literal (span : Span) (kind : LiteralKind) (text : String)
  | ident (span : Span) (name : String)
  /-- `receiver.name(args)`, or `name(args)` when the receiver is absent. -/
  | call (span : Span) (receiver : Expr) (name : String) (args : List Expr)
  /-- `receiver.name` -/
  | field (span : Span) (receiver : Expr) (name : String)
  | unary (span : Span) (op : UnaryOp) (operand : Expr)
  | paren (span : Span) (inner : Expr)
  | binary (span : Span) (op : BinaryOp) (left right : Expr)
  /-- Operands side by side, joined by one operator. -/
  | chain (span : Span) (op : BinaryOp) (operands : List Expr)
  /-- `cond ? yes : no` -/
  | conditional (span : Span) (cond yes no : Expr)
  deriving Repr, Inhabited

/-- **The form of a node:** what it shows of itself without looking below it. -/
inductive Form where
  | absent
  | error
  | literal (kind : LiteralKind)
  | call (args : Nat)
  | unary (op : UnaryOp)
  | infixed (op : BinaryOp)
  | conditional
  /-- An identifier, a field access or a parenthesis. -/
  | plain
  deriving DecidableEq, Repr

namespace Form

/-- Whether nothing stands here that could be compared or moved. -/
def isMissing : Form → Bool
  | .absent | .error => true
  | _ => false

def isCall : Form → Bool
  | .call _ => true
  | _ => false

/-- The number of arguments of a call. -/
def args? : Form → Option Nat
  | .call n => some n
  | _ => none

def literalKind? : Form → Option LiteralKind
  | .literal kind => some kind
  | _ => none

def isLiteral (f : Form) : Bool := f.literalKind?.isSome

/-- The operator of a binary node or a chain. -/
def infixed? : Form → Option BinaryOp
  | .infixed op => some op
  | _ => none

end Form

namespace Expr

def span : Expr → Span
  | .absent => .nowhere
  | .error s | .literal s .. | .ident s .. | .call s .. | .field s .. | .unary s .. | .paren s ..
  | .binary s .. | .chain s .. | .conditional s .. => s

def form : Expr → Form
  | .absent => .absent
  | .error _ => .error
  | .literal _ kind _ => .literal kind
  | .call _ _ _ args => .call args.length
  | .unary _ op _ => .unary op
  | .binary _ op _ _ => .infixed op
  | .chain _ op _ => .infixed op
  | .conditional .. => .conditional
  | .ident .. | .field .. | .paren .. => .plain

def isMissing (e : Expr) : Bool := e.form.isMissing

/-- The operator of a binary node or a chain. -/
def infixed? (e : Expr) : Option BinaryOp := e.form.infixed?

/-- The operands of a binary node or a chain, in order; none for any other node. -/
def operands : Expr → List Expr
  | .binary _ _ left right => [left, right]
  | .chain _ _ operands => operands
  | _ => []

/-- The arguments of a call; none for any other node. -/
def args : Expr → List Expr
  | .call _ _ _ args => args
  | _ => []

/-- **Joining operands under one operator:** a binary node for two, a chain for any other number. -/
def join (span : Span) (op : BinaryOp) : List Expr → Expr
  | [left, right] => .binary span op left right
  | operands => .chain span op operands

/-! ### Measures

The name of a call or of a field access counts as a node of its own in the weight. -/

mutual

/-- **Weight of a tree,** the first thing operands are compared by. -/
def weight : Expr → Nat
  | .absent => 0
  | .error _ | .literal .. | .ident .. => 1
  | .call _ receiver _ args => 2 + receiver.weight + weights args
  | .field _ receiver _ => 2 + receiver.weight
  | .unary _ _ operand => 1 + operand.weight
  | .paren _ inner => 1 + inner.weight
  | .binary _ _ left right => 1 + left.weight + right.weight
  | .chain _ _ operands => 1 + weights operands
  | .conditional _ cond yes no => 1 + cond.weight + yes.weight + no.weight

/-- The weights of several trees together. -/
def weights : List Expr → Nat
  | [] => 0
  | e :: es => e.weight + weights es

end

mutual

/-- Number of nodes that are present. -/
def size : Expr → Nat
  | .absent => 0
  | .error _ | .literal .. | .ident .. => 1
  | .call _ receiver _ args => 1 + receiver.size + sizes args
  | .field _ receiver _ => 1 + receiver.size
  | .unary _ _ operand => 1 + operand.size
  | .paren _ inner => 1 + inner.size
  | .binary _ _ left right => 1 + left.size + right.size
  | .chain _ _ operands => 1 + sizes operands
  | .conditional _ cond yes no => 1 + cond.size + yes.size + no.size

/-- Number of nodes of several trees together. -/
def sizes : List Expr → Nat
  | [] => 0
  | e :: es => e.size + sizes es

end

mutual

/-- The names and literal texts of a tree, left to right. -/
def names : Expr → List String
  | .absent | .error _ => []
  | .literal _ _ text => [text]
  | .ident _ name => [name]
  | .call _ receiver name args => receiver.names ++ name :: namesAll args
  | .field _ receiver name => receiver.names ++ [name]
  | .unary _ _ operand => operand.names
  | .paren _ inner => inner.names
  | .binary _ _ left right => left.names ++ right.names
  | .chain _ _ operands => namesAll operands
  | .conditional _ cond yes no => cond.names ++ yes.names ++ no.names

/-- The names of several trees, in order. -/
def namesAll : List Expr → List String
  | [] => []
  | e :: es => e.names ++ namesAll es

end

/-! ### Equality

Two trees are equal when they agree in every kind, operator, name, span and child; `same` decides
that, and `same_iff` says so. -/

mutual

/-- Whether two trees are the same, spans included. -/
def same : Expr → Expr → Bool
  | .absent, .absent => true
  | .error s, .error t => s == t
  | .literal s k x, .literal t l y => s == t && k == l && x == y
  | .ident s x, .ident t y => s == t && x == y
  | .call s a x as, .call t b y bs => s == t && x == y && same a b && sameAll as bs
  | .field s a x, .field t b y => s == t && x == y && same a b
  | .unary s p a, .unary t q b => s == t && p == q && same a b
  | .paren s a, .paren t b => s == t && same a b
  | .binary s p a c, .binary t q b d => s == t && p == q && same a b && same c d
  | .chain s p as, .chain t q bs => s == t && p == q && sameAll as bs
  | .conditional s a c e, .conditional t b d f => s == t && same a b && same c d && same e f
  | _, _ => false

/-- Whether two lists of trees are the same, place by place. -/
def sameAll : List Expr → List Expr → Bool
  | [], [] => true
  | a :: as, b :: bs => same a b && sameAll as bs
  | _, _ => false

end

mutual

/-- **The comparison decides equality.** One case for each constructor of the first tree. -/
theorem same_iff : ∀ a b : Expr, same a b = true ↔ a = b
  | .absent, b => by cases b <;> simp [same]
  | .error _, b => by cases b <;> simp [same]
  | .literal .., b => by cases b <;> simp [same, and_assoc]
  | .ident .., b => by cases b <;> simp [same]
  | .call _ a _ as, b => by
    cases b with
    | call _ b _ bs => simp only [same, Bool.and_eq_true, beq_iff_eq, same_iff a b,
        sameAll_iff as bs, call.injEq]; grind
    | _ => simp [same]
  | .field _ a _, b => by
    cases b with
    | field _ b _ =>
      simp only [same, Bool.and_eq_true, beq_iff_eq, same_iff a b, field.injEq]; grind
    | _ => simp [same]
  | .unary _ _ a, b => by
    cases b with
    | unary _ _ b => simp only [same, Bool.and_eq_true, beq_iff_eq, same_iff a b, unary.injEq,
        and_assoc]
    | _ => simp [same]
  | .paren _ a, b => by
    cases b with
    | paren _ b => simp only [same, Bool.and_eq_true, beq_iff_eq, same_iff a b, paren.injEq]
    | _ => simp [same]
  | .binary _ _ a c, b => by
    cases b with
    | binary _ _ b d => simp only [same, Bool.and_eq_true, beq_iff_eq, same_iff a b, same_iff c d,
        binary.injEq, and_assoc]
    | _ => simp [same]
  | .chain _ _ as, b => by
    cases b with
    | chain _ _ bs => simp only [same, Bool.and_eq_true, beq_iff_eq, sameAll_iff as bs,
        chain.injEq, and_assoc]
    | _ => simp [same]
  | .conditional _ a c e, b => by
    cases b with
    | conditional _ b d f => simp only [same, Bool.and_eq_true, beq_iff_eq, same_iff a b,
        same_iff c d, same_iff e f, conditional.injEq, and_assoc]
    | _ => simp [same]

theorem sameAll_iff : ∀ as bs : List Expr, sameAll as bs = true ↔ as = bs
  | [], bs => by cases bs <;> simp [sameAll]
  | a :: as, bs => by
    cases bs with
    | nil => simp [sameAll]
    | cons b bs => simp only [sameAll, Bool.and_eq_true, same_iff a b, sameAll_iff as bs,
        List.cons.injEq]

end

instance : DecidableEq Expr := fun a b => decidable_of_iff (same a b = true) (same_iff a b)

end Expr

end OperandOrder
