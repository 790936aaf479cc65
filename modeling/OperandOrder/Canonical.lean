import OperandOrder.Arrange

/-!
# Canonical form, and reordering within a range

`canonical` puts a whole tree in canonical form, from the leaves up: the operands of a node are put
in canonical form first and then arranged. `reorderWithin` does so only for the operators that a
byte range selects. An infix node is *selected* when its span overlaps the range and all its
operands are there; it is then put in canonical form with all that is below it, and everything else
is left as it is.

Operands are arranged by the profiles they have in the given tree. Canonical form keeps spans,
weights and forms, so it makes no difference whether an operand is measured before or after.

Both functions say whether they changed anything (`Outcome.changed`).
-/

namespace OperandOrder

/-- **A tree, and whether it differs** from the one it was made of. -/
structure Outcome where
  expr : Expr
  changed : Bool
  deriving DecidableEq, Repr

/-- What becomes of an infix node with the operands `es`: the outcomes of these, arranged
and joined. -/
def Outcome.arranged (policy : Policy) (span : Span) (op : BinaryOp) (es : List Expr)
    (outcomes : List Outcome) : Outcome :=
  let a := arrange policy op (Operand.measure es outcomes)
  ⟨.join span a.op (a.operands.map (·.item.expr)), outcomes.any (·.changed) || a.moved⟩

namespace Expr

mutual

/-- **Canonical form** under a policy. -/
def canonical (policy : Policy) : Expr → Outcome
  | .absent => ⟨.absent, false⟩
  | .error s => ⟨.error s, false⟩
  | .literal s kind text => ⟨.literal s kind text, false⟩
  | .ident s name => ⟨.ident s name, false⟩
  | .call s receiver name args =>
    let r := receiver.canonical policy
    let as := canonicalAll policy args
    ⟨.call s r.expr name (as.map (·.expr)), r.changed || as.any (·.changed)⟩
  | .field s receiver name =>
    let r := receiver.canonical policy
    ⟨.field s r.expr name, r.changed⟩
  | .unary s op operand =>
    let o := operand.canonical policy
    ⟨.unary s op o.expr, o.changed⟩
  | .paren s inner =>
    let i := inner.canonical policy
    ⟨.paren s i.expr, i.changed⟩
  | .binary s op left right =>
    .arranged policy s op [left, right] [left.canonical policy, right.canonical policy]
  | .chain s op operands => .arranged policy s op operands (canonicalAll policy operands)
  | .conditional s cond yes no =>
    let c := cond.canonical policy
    let y := yes.canonical policy
    let n := no.canonical policy
    ⟨.conditional s c.expr y.expr n.expr, c.changed || y.changed || n.changed⟩

/-- The canonical forms of several trees. -/
def canonicalAll (policy : Policy) : List Expr → List Outcome
  | [] => []
  | e :: es => e.canonical policy :: canonicalAll policy es

end

/-- **Whether a range selects a node** for reordering. -/
def isSelected (range : Span) (e : Expr) : Bool :=
  e.infixed?.isSome && e.span.overlaps range && !e.operands.any isMissing

mutual

/-- **Canonical form within a range.** -/
def reorderWithin (policy : Policy) (range : Span) : Expr → Outcome
  | .absent => ⟨.absent, false⟩
  | .error s => ⟨.error s, false⟩
  | .literal s kind text => ⟨.literal s kind text, false⟩
  | .ident s name => ⟨.ident s name, false⟩
  | .call s receiver name args =>
    let r := receiver.reorderWithin policy range
    let as := reorderAllWithin policy range args
    ⟨.call s r.expr name (as.map (·.expr)), r.changed || as.any (·.changed)⟩
  | .field s receiver name =>
    let r := receiver.reorderWithin policy range
    ⟨.field s r.expr name, r.changed⟩
  | .unary s op operand =>
    let o := operand.reorderWithin policy range
    ⟨.unary s op o.expr, o.changed⟩
  | .paren s inner =>
    let i := inner.reorderWithin policy range
    ⟨.paren s i.expr, i.changed⟩
  | .binary s op left right =>
    if (binary s op left right).isSelected range then (binary s op left right).canonical policy
    else
      let l := left.reorderWithin policy range
      let r := right.reorderWithin policy range
      ⟨.binary s op l.expr r.expr, l.changed || r.changed⟩
  | .chain s op operands =>
    if (chain s op operands).isSelected range then (chain s op operands).canonical policy
    else
      let os := reorderAllWithin policy range operands
      ⟨.chain s op (os.map (·.expr)), os.any (·.changed)⟩
  | .conditional s cond yes no =>
    let c := cond.reorderWithin policy range
    let y := yes.reorderWithin policy range
    let n := no.reorderWithin policy range
    ⟨.conditional s c.expr y.expr n.expr, c.changed || y.changed || n.changed⟩

/-- The same for several trees. -/
def reorderAllWithin (policy : Policy) (range : Span) : List Expr → List Outcome
  | [] => []
  | e :: es => e.reorderWithin policy range :: reorderAllWithin policy range es

end

end Expr

end OperandOrder
