import OperandOrder.Expr

/-!
# Stores

A `Store` keeps the nodes of any number of trees in one sequence. A node names its children by where
they stand in the sequence; a child that is not there is `none`. Nodes are only ever added at the
end, so what a reference denotes never changes once it denotes something.

`Store.tree?` reads the tree that a reference denotes. It has no answer if a reference that is
reached points past the end, or if the nodes go round in a circle.

The other readings here look at nodes rather than trees: `Store.visit?` lists the nodes below a
reference, and `Store.sameTree?` compares two trees in step, ending with the first difference.
-/

namespace OperandOrder

/-- **A reference to a node;** none for a child that is not there. -/
abbrev Ref := Option Nat

/-- What a node is, its children given by reference. -/
inductive Shape where
  | error
  | literal (kind : LiteralKind) (text : String)
  | ident (name : String)
  | call (receiver : Ref) (name : String) (args : List Ref)
  | field (receiver : Ref) (name : String)
  | unary (op : UnaryOp) (operand : Ref)
  | paren (inner : Ref)
  | binary (op : BinaryOp) (left right : Ref)
  | chain (op : BinaryOp) (operands : List Ref)
  | conditional (cond yes no : Ref)
  deriving DecidableEq, Repr

namespace Shape

def form : Shape → Form
  | .error => .error
  | .literal kind _ => .literal kind
  | .call _ _ args => .call args.length
  | .unary op _ => .unary op
  | .binary op _ _ => .infixed op
  | .chain op _ => .infixed op
  | .conditional .. => .conditional
  | .ident _ | .field .. | .paren _ => .plain

/-- The children, left to right, the receiver of a call before its arguments. -/
def children : Shape → List Ref
  | .error | .literal .. | .ident _ => []
  | .call receiver _ args => receiver :: args
  | .field receiver _ => [receiver]
  | .unary _ operand => [operand]
  | .paren inner => [inner]
  | .binary _ left right => [left, right]
  | .chain _ operands => operands
  | .conditional cond yes no => [cond, yes, no]

/-- The operands of a binary node or a chain. -/
def operands : Shape → List Ref
  | .binary _ left right => [left, right]
  | .chain _ operands => operands
  | _ => []

/-- Operands joined under one operator: a binary node for two, a chain for any other number. -/
def join (op : BinaryOp) : List Ref → Shape
  | [left, right] => .binary op left right
  | operands => .chain op operands

end Shape

/-- A node: its shape, and the span it was read from. -/
structure Node where
  span : Span
  shape : Shape
  deriving DecidableEq, Repr

/-- **A store:** nodes, each found by its place. -/
structure Store where
  nodes : Array Node
  deriving Repr

namespace Store

def empty : Store := ⟨#[]⟩

def size (s : Store) : Nat := s.nodes.size

/-- The node at a place. -/
def node? (s : Store) (i : Nat) : Option Node := s.nodes[i]?

/-- **Adds a node** at the end, and says where. -/
def push (s : Store) (node : Node) : Store × Ref := (⟨s.nodes.push node⟩, some s.size)

/-! ### Reading one node -/

/-- The node at a reference; a child that is not there has none. -/
def at? (s : Store) (r : Ref) : Option Node := r.bind s.node?

/-- The form of what a reference denotes. -/
def form? (s : Store) : Ref → Option Form
  | none => some .absent
  | some i => (s.node? i).map (·.shape.form)

/-- Whether nothing stands at a reference. -/
def isMissing? (s : Store) (r : Ref) : Option Bool := (s.form? r).map Form.isMissing

/-! ### Reading trees -/

/-- The tree at a reference, at most `n` nodes deep. -/
def treeWithin (s : Store) : Nat → Ref → Option Expr
  | _, none => some .absent
  | 0, some _ => none
  | n + 1, some i => do
    let node ← s.node? i
    match node.shape with
    | .error => some (.error node.span)
    | .literal kind text => some (.literal node.span kind text)
    | .ident name => some (.ident node.span name)
    | .call receiver name args => do
      some (.call node.span (← s.treeWithin n receiver) name (← args.mapM (s.treeWithin n)))
    | .field receiver name => do some (.field node.span (← s.treeWithin n receiver) name)
    | .unary op operand => do some (.unary node.span op (← s.treeWithin n operand))
    | .paren inner => do some (.paren node.span (← s.treeWithin n inner))
    | .binary op left right => do
      some (.binary node.span op (← s.treeWithin n left) (← s.treeWithin n right))
    | .chain op operands => do some (.chain node.span op (← operands.mapM (s.treeWithin n)))
    | .conditional cond yes no => do
      some (.conditional node.span (← s.treeWithin n cond) (← s.treeWithin n yes)
        (← s.treeWithin n no))

/-- **The tree at a reference.** No path without a circle is longer than the store. -/
def tree? (s : Store) (r : Ref) : Option Expr := s.treeWithin s.size r

/-- The nodes at and below a reference, at most `n` deep. -/
def visitWithin (s : Store) : Nat → Ref → Option (List Nat)
  | _, none => some []
  | 0, some _ => none
  | n + 1, some i => do
    let node ← s.node? i
    let below ← node.shape.children.mapM (s.visitWithin n)
    some (i :: below.flatten)

/-- **The places of the nodes** at and below a reference, parents before children, left to right. -/
def visit? (s : Store) (r : Ref) : Option (List Nat) := s.visitWithin s.size r

/-! ### Comparing trees -/

/-- Compares two lists place by place, ending with the first difference. -/
def sameAllBy (same : Ref → Ref → Option Bool) : List Ref → List Ref → Option Bool
  | [], [] => some true
  | a :: as, b :: bs => do if ← same a b then sameAllBy same as bs else some false
  | _, _ => some false

/-- Whether two lists of the same length hold the same trees. -/
def sameListBy (same : Ref → Ref → Option Bool) (as bs : List Ref) : Option Bool :=
  if as.length = bs.length then sameAllBy same as bs else some false

/-- Compares two trees, at most `n` nodes deep. -/
def sameWithin (s t : Store) : Nat → Ref → Ref → Option Bool
  | _, none, none => some true
  | _, none, some _ => some false
  | _, some _, none => some false
  | 0, some _, some _ => none
  | n + 1, some i, some j => do
    let x ← s.node? i
    let y ← t.node? j
    if x.span ≠ y.span then some false
    else
      match x.shape, y.shape with
      | .error, .error => some true
      | .literal k a, .literal l b => some (k == l && a == b)
      | .ident a, .ident b => some (a == b)
      | .call a m as, .call b n' bs => do
        if m == n' then
          if ← sameWithin s t n a b then sameListBy (sameWithin s t n) as bs else some false
        else some false
      | .field a m, .field b n' => if m == n' then sameWithin s t n a b else some false
      | .unary p a, .unary q b => if p == q then sameWithin s t n a b else some false
      | .paren a, .paren b => sameWithin s t n a b
      | .binary p a c, .binary q b d => do
        if p == q then
          if ← sameWithin s t n a b then sameWithin s t n c d else some false
        else some false
      | .chain p as, .chain q bs =>
        if p == q then sameListBy (sameWithin s t n) as bs else some false
      | .conditional a c e, .conditional b d f => do
        if ← sameWithin s t n a b then
          if ← sameWithin s t n c d then sameWithin s t n e f else some false
        else some false
      | _, _ => some false

/-- **Whether two references denote the same tree,** spans included, wherever its nodes stand. No
comparison goes through more pairs of nodes than there are without meeting a pair again; so there
may be an answer where the nodes of both go round in circles, if the circles differ. -/
def sameTree? (s : Store) (a : Ref) (t : Store) (b : Ref) : Option Bool :=
  sameWithin s t (s.size * t.size) a b

end Store

end OperandOrder
