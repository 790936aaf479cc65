import OperandOrder.Opportunity
import OperandOrder.Printer
import OperandOrder.Store

/-!
# Placing trees in a store

A tree is placed in a store children first, left to right, and every node of it once. It can be
placed as it is, in canonical form, or reordered within a range (`Treatment`). In each case the
nodes come in the order of the given tree; where operands are arranged, the node that joins them
names them in the new order. `Store.ofParsed` lays a tree out in the order in which a reader of its
text completes the nodes.

The operations at the end work on a tree in one store and place their result in another. They have
no answer where the tree cannot be read.
-/

namespace OperandOrder

/-- **What is done to a tree** while it is placed. -/
inductive Treatment where
  /-- It is copied as it is. -/
  | keep
  /-- The nodes that a range selects are put in canonical form. -/
  | within (policy : Policy) (range : Span)
  /-- All of it is put in canonical form. -/
  | canonical (policy : Policy)

namespace Treatment

/-- What is done from a node on downwards. -/
def enter : Treatment → Expr → Treatment
  | .within policy range, e =>
    if e.isSelected range then .canonical policy else .within policy range
  | t, _ => t

/-- The shape of an infix node: arranged in canonical form, and as given otherwise. -/
def joined (kept : Shape) (op : BinaryOp) (operands : List (Operand Ref)) : Treatment → Shape
  | .canonical policy =>
    let a := arrange policy op operands
    .join a.op (a.operands.map (·.item))
  | _ => kept

end Treatment

namespace Store

mutual

/-- **Places a tree,** and says where its root is. -/
def place (t : Treatment) : Expr → Store → Store × Ref
  | .absent, s => (s, none)
  | .error span, s => s.push ⟨span, .error⟩
  | .literal span kind text, s => s.push ⟨span, .literal kind text⟩
  | .ident span name, s => s.push ⟨span, .ident name⟩
  | .call span receiver name args, s =>
    let r := place t receiver s
    let as := placeAll t args r.1
    as.1.push ⟨span, .call r.2 name as.2⟩
  | .field span receiver name, s =>
    let r := place t receiver s
    r.1.push ⟨span, .field r.2 name⟩
  | .unary span op operand, s =>
    let o := place t operand s
    o.1.push ⟨span, .unary op o.2⟩
  | .paren span inner, s =>
    let i := place t inner s
    i.1.push ⟨span, .paren i.2⟩
  | .binary span op left right, s =>
    let inside := t.enter (.binary span op left right)
    let l := place inside left s
    let r := place inside right l.1
    let shape := inside.joined (.binary op l.2 r.2) op (Operand.measure [left, right] [l.2, r.2])
    r.1.push ⟨span, shape⟩
  | .chain span op operands, s =>
    let inside := t.enter (.chain span op operands)
    let os := placeAll inside operands s
    let shape := inside.joined (.chain op os.2) op (Operand.measure operands os.2)
    os.1.push ⟨span, shape⟩
  | .conditional span cond yes no, s =>
    let c := place t cond s
    let y := place t yes c.1
    let n := place t no y.1
    n.1.push ⟨span, .conditional c.2 y.2 n.2⟩

/-- Places several trees, one after the other. -/
def placeAll (t : Treatment) : List Expr → Store → Store × List Ref
  | [], s => (s, [])
  | e :: es, s =>
    let first := place t e s
    let others := placeAll t es first.1
    (others.1, first.2 :: others.2)

end

/-! ### The layout of a tree that was read from text

A reader completes a node once it has read the last of its operands, with one exception. A run of
one operator is closed only by the sight of another operator of its level, and the reader has the
operand behind that operator in hand before it closes the run. So where the leftmost operand of an
infix node is an infix node of the same level, it comes after its neighbour. -/

/-- Adds a node that was held back. -/
def release : Store × Option Node → Store × Ref
  | (s, none) => (s, none)
  | (s, some node) => s.push node

/-- Lays out the first two operands, the first of them held back if it is a run that the second one
closes. -/
def layPair (held : Bool) (first second : Store → Store × Option Node) (s : Store) :
    Store × Ref × Ref :=
  if held then
    let a := first s
    let b := release (second a.1)
    let a' := release (b.1, a.2)
    (a'.1, a'.2, b.2)
  else
    let a := release (first s)
    let b := release (second a.1)
    (b.1, a.2, b.2)

/-- Whether an operand is a run of the level of the operator behind it. -/
def closedBy (op : BinaryOp) (e : Expr) : Bool := e.infixed?.any (·.level == op.level)

mutual

/-- Lays out all that is below a tree and hands back its root, which is not added yet. -/
def lay : Expr → Store → Store × Option Node
  | .absent, s => (s, none)
  | .error span, s => (s, some ⟨span, .error⟩)
  | .literal span kind text, s => (s, some ⟨span, .literal kind text⟩)
  | .ident span name, s => (s, some ⟨span, .ident name⟩)
  | .call span receiver name args, s =>
    let r := release (lay receiver s)
    let as := layAll args r.1
    (as.1, some ⟨span, .call r.2 name as.2⟩)
  | .field span receiver name, s =>
    let r := release (lay receiver s)
    (r.1, some ⟨span, .field r.2 name⟩)
  | .unary span op operand, s =>
    let o := release (lay operand s)
    (o.1, some ⟨span, .unary op o.2⟩)
  | .paren span inner, s =>
    let i := release (lay inner s)
    (i.1, some ⟨span, .paren i.2⟩)
  | .binary span op left right, s =>
    let two := layPair (closedBy op left) (lay left) (lay right) s
    (two.1, some ⟨span, .binary op two.2.1 two.2.2⟩)
  | .chain span op operands, s =>
    match operands with
    | first :: second :: others =>
      let two := layPair (closedBy op first) (lay first) (lay second) s
      let rest := layAll others two.1
      (rest.1, some ⟨span, .chain op (two.2.1 :: two.2.2 :: rest.2)⟩)
    | few =>
      let all := layAll few s
      (all.1, some ⟨span, .chain op all.2⟩)
  | .conditional span cond yes no, s =>
    let c := release (lay cond s)
    let y := release (lay yes c.1)
    let n := release (lay no y.1)
    (n.1, some ⟨span, .conditional c.2 y.2 n.2⟩)

/-- Lays out several trees, one after the other. -/
def layAll : List Expr → Store → Store × List Ref
  | [], s => (s, [])
  | e :: es, s =>
    let first := release (lay e s)
    let others := layAll es first.1
    (others.1, first.2 :: others.2)

end

/-- **The store of a tree that was read from text,** as reading it into an arena leaves it
(`Arena.exists_parseArena?`). -/
def ofParsed (e : Expr) : Store × Ref := release (lay e empty)

/-! ### Operations on stored trees -/

/-- The text of a stored tree. -/
def print? (s : Store) (r : Ref) : Option String := (s.tree? r).map Expr.print

/-- The weight of a stored tree. -/
def weight? (s : Store) (r : Ref) : Option Nat := (s.tree? r).map Expr.weight

/-- Whether one stored tree is larger than another; neither is looked into if one is missing. -/
def isLarger? (s : Store) (a b : Ref) : Option Bool := do
  if ← s.isMissing? a then some false
  else if ← s.isMissing? b then some false
  else
    let x ← s.tree? a
    let y ← s.tree? b
    some (x.profile.isLarger y.profile)

/-- **Copies a tree** from one store to another. -/
def copy? (src : Store) (r : Ref) (dst : Store) : Option (Store × Ref) :=
  (src.tree? r).map fun e => place .keep e dst

/-- **Places the canonical form** of a stored tree, and says whether it differs. -/
def canonical? (policy : Policy) (src : Store) (r : Ref) (dst : Store) :
    Option ((Store × Ref) × Bool) :=
  (src.tree? r).map fun e => (place (.canonical policy) e dst, (e.canonical policy).changed)

/-- **Reorders a stored tree within a range,** into a store of its own. -/
def reorderWithin? (policy : Policy) (range : Span) (src : Store) (r : Ref) :
    Option ((Store × Ref) × Bool) :=
  (src.tree? r).map fun e =>
    (place (.within policy range) e empty, (e.reorderWithin policy range).changed)

/-- The opportunities of a stored tree. -/
def opportunities? (policy : Policy) (s : Store) (r : Ref) : Option RangeSet :=
  (s.tree? r).map (Expr.opportunities policy)

end Store

end OperandOrder
