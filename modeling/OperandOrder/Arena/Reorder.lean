import OperandOrder.Arena
import OperandOrder.Canonical
import OperandOrder.RangeSet

/-!
# Reordering in arenas

A tree in one arena is written to another as it is, in canonical form, or reordered within a range.
What is written of a node is written after its children, left to right, and the list of a node right
before its cell. Operands are compared where they have just been written, so the arena that is being
filled is read meanwhile.

The sorting of operands goes by their places in a list. Each place is looked up, and so is the last
place of a list, which an empty list does not have.
-/

namespace OperandOrder

namespace Arena

/-! ### Writing a tree -/

/-- **What has been written:** the arena as it is then, a reference, and whether it denotes another
tree than the one that was read. -/
structure Written where
  arena : Arena
  ref : Ref
  changed : Bool
  deriving DecidableEq, Repr

/-- The same for several trees. -/
structure WrittenAll where
  arena : Arena
  refs : List Ref
  changed : Bool

/-- Writes several trees, one after the other. -/
def writeAll? (write : Ref → Arena → Option Written) : List Ref → Arena → Option WrittenAll
  | [], dst => some ⟨dst, [], false⟩
  | r :: rs, dst => do
    let first ← write r dst
    let others ← writeAll? write rs first.arena
    some ⟨others.arena, first.ref :: others.refs, first.changed || others.changed⟩

/-- **Writes a node** with its children written as asked. -/
def rebuild? (write : Ref → Arena → Option Written) (node : Node) (dst : Arena) :
    Option Written := do
  let children ← writeAll? write node.shape.children dst
  let root := children.arena.push ⟨node.span, node.shape.withChildren children.refs⟩
  some ⟨root.1, root.2, children.changed⟩

/-- Copies a tree, at most `n` nodes deep. -/
def copyWithin (src : Arena) : Nat → Ref → Arena → Option Written
  | _, none, dst => some ⟨dst, none, false⟩
  | 0, some _, _ => none
  | n + 1, some i, dst => do
    let node ← src.node? (some i)
    rebuild? (src.copyWithin n) node dst

/-- **Copies a tree** to another arena. -/
def copy? (src : Arena) (r : Ref) (dst : Arena) : Option Written := src.copyWithin src.size r dst

/-! ### Sorting -/

/-- One sweep over `n` pairs of neighbours, the first of them at place `j`. -/
def sweepAt? (swaps : Ref → Ref → Option Bool) : Nat → Nat → List Ref → Option (List Ref × Bool)
  | 0, _, ops => some (ops, false)
  | n + 1, j, ops => do
    let x ← ops[j]?
    let y ← ops[j + 1]?
    if ← swaps x y then
      let later ← sweepAt? swaps n (j + 1) ((ops.set j y).set (j + 1) x)
      some (later.1, true)
    else sweepAt? swaps n (j + 1) ops

/-- The number before a number. Zero has none. -/
def pred? : Nat → Option Nat
  | 0 => none
  | n + 1 => some n

/-- At most `n` sweeps, ending with the first that swaps nothing. -/
def sweepTimes? (swaps : Ref → Ref → Option Bool) : Nat → List Ref → Option (List Ref × Bool)
  | 0, ops => some (ops, false)
  | n + 1, ops => do
    let pairs ← pred? ops.length
    let once ← sweepAt? swaps pairs 0 ops
    if once.2 then
      let later ← sweepTimes? swaps n once.1
      some (later.1, true)
    else some once

/-- As many sweeps as there are operands. -/
def bubble? (swaps : Ref → Ref → Option Bool) (ops : List Ref) : Option (List Ref × Bool) :=
  sweepTimes? swaps ops.length ops

section Orders

variable (a : Arena) (policy : Policy) (op : BinaryOp)

/-- Whether an operand is exempt in any position. It is looked up only where literals may not move,
or under `+`. -/
def exempts? (x : Ref) : Option Bool :=
  if policy.bothLiterals == .none || op ==
    .add then (a.form? x).map (policy.exempts op) else some false

/-- Whether an operand is exempt on the right. -/
def exemptsRight? (x : Ref) : Option Bool := (a.form? x).map (policy.exemptsRight op)

/-- Whether two operands have to keep their order. The right one is not looked up if the left one
is exempt. -/
def exemptsPair? (x y : Ref) : Option Bool := do
  let f ← a.form? x
  if policy.exempts op f then some true else (a.form? y).map (policy.exemptsPair op f)

/-- Whether the first two operands trade places. -/
def swapsFront? (x y : Ref) : Option Bool := do
  if ← a.isLarger? x y then
    let f ← a.form? x
    let g ← a.form? y
    some !policy.exemptsPair op f g
  else some false

/-- Whether an operand is a call that steps back past the next one. -/
def sinksBack? (x y : Ref) : Option Bool := do
  let f ← a.form? x
  if f.isCall then
    let g ← a.form? y
    some (!g.isCall && !policy.exempts op f && !policy.exempts op g)
  else some false

/-- Whether an operand takes part in the order by size. -/
def movable? (x : Ref) : Option Bool := do
  let f ← a.form? x
  some (!f.isCall && !policy.exempts op f && !policy.exemptsRight op f)

/-- Whether an operand steps back past the smaller one behind it. -/
def outgrows? (x y : Ref) : Option Bool := do
  if ← a.movable? policy op x then
    if ← a.movable? policy op y then a.isLarger? x y else some false
  else some false

end Orders

/-- **Operands in order:** their operator, and whether anything moved. -/
structure Sorted where
  op : BinaryOp
  refs : List Ref
  moved : Bool
  deriving DecidableEq, Repr

/-- Swaps the first two operands if they belong the other way round. -/
def swapFront? (a : Arena) (policy : Policy) (s : Sorted) : Option Sorted := do
  let x ← s.refs[0]?
  let y ← s.refs[1]?
  if ← a.swapsFront? policy s.op x y then some ⟨s.op.converse, (s.refs.set 0 y).set 1 x, true⟩
  else some s

/-- Does so if there are two operands, and their operator is flippable. -/
def trySwap? (a : Arena) (policy : Policy) (s : Sorted) : Option Sorted :=
  if 2 ≤ s.refs.length && s.op.isFlippable then a.swapFront? policy s else some s

/-- The order of three or more operands of a flippable operator. -/
def sortChain? (a : Arena) (policy : Policy) (op : BinaryOp) (refs : List Ref) : Option Sorted :=
  if !op.isFlippable || refs.length < 3 then some ⟨op, refs, false⟩
  else do
    let back ← bubble? (a.sinksBack? policy op) refs
    let sized ← bubble? (a.outgrows? policy op) back.1
    a.swapFront? policy ⟨op, sized.1, back.2 || sized.2⟩

/-- **Puts operands in order,** where they have been written. None of them is missing. -/
def arrange? (a : Arena) (policy : Policy) (op : BinaryOp) (refs : List Ref) : Option Sorted := do
  let front ← a.trySwap? policy ⟨op, refs, false⟩
  if 2 < front.refs.length then
    let sorted ← a.sortChain? policy front.op front.refs
    some ⟨sorted.op, sorted.refs, front.moved || sorted.moved⟩
  else some front

/-- Leaves operands as they are if one of them is missing, and puts them in order otherwise. -/
def arrangeUnless? (a : Arena) (policy : Policy) (incomplete : Bool) (op : BinaryOp)
    (refs : List Ref) : Option Sorted :=
  if incomplete then some ⟨op, refs, false⟩ else a.arrange? policy op refs

/-! ### Canonical form -/

/-- Writes an operand. One that is missing is copied. -/
def operandWithin (src : Arena) (write : Ref → Arena → Option Written) (n : Nat) (r : Ref)
    (dst : Arena) : Option Written := do
  if ← src.isMissing? r then src.copyWithin n r dst else write r dst

/-- **Writes an infix node** with its operands in canonical form. They keep their order if one of
them is missing. -/
def infixWithin? (src : Arena) (policy : Policy) (write : Ref → Arena → Option Written)
    (span : Span) (op : BinaryOp) (operands : List Ref) (dst : Arena) : Option Written := do
  let written ← writeAll? write operands dst
  let missing ← operands.mapM src.isMissing?
  let sorted ← written.arena.arrangeUnless? policy (missing.any id) op written.refs
  let root := written.arena.push ⟨span, .join sorted.op sorted.refs⟩
  some ⟨root.1, root.2, written.changed || sorted.moved⟩

/-- Canonical form, at most `n` nodes deep. -/
def canonicalWithin (policy : Policy) (src : Arena) : Nat → Ref → Arena → Option Written
  | _, none, dst => some ⟨dst, none, false⟩
  | 0, some _, _ => none
  | n + 1, some i, dst => do
    let node ← src.node? (some i)
    match node.shape.form.infixed? with
    | some op =>
      src.infixWithin? policy (src.operandWithin (src.canonicalWithin policy n) n) node.span op
        node.shape.operands dst
    | none => rebuild? (src.canonicalWithin policy n) node dst

/-- **Writes the canonical form of a tree** to another arena. -/
def canonical? (policy : Policy) (src : Arena) (r : Ref) (dst : Arena) : Option Written :=
  src.canonicalWithin policy src.size r dst

/-! ### Reordering within a range -/

/-- Whether one of several operands is missing. None is looked at behind the first that is. -/
def anyMissing? (a : Arena) : List Ref → Option Bool
  | [] => some false
  | r :: rs => do if ← a.isMissing? r then some true else a.anyMissing? rs

/-- Whether a range selects a node. Its operands are looked at only if it is an infix node that the
range meets. -/
def selects? (src : Arena) (range : Span) (node : Node) : Option Bool :=
  if node.shape.form.infixed?.isSome && node.span.overlaps range then
    (src.anyMissing? node.shape.operands).map (!·)
  else some false

/-- Reordering within a range, at most `n` nodes deep. -/
def reorderWithin (policy : Policy) (range : Span) (src : Arena) :
    Nat → Ref → Arena → Option Written
  | _, none, dst => some ⟨dst, none, false⟩
  | 0, some _, _ => none
  | n + 1, some i, dst => do
    let node ← src.node? (some i)
    if ← src.selects? range node then src.canonical? policy (some i) dst
    else rebuild? (src.reorderWithin policy range n) node dst

/-- **Reorders a tree within a range,** into an arena of its own. -/
def reorderWithin? (policy : Policy) (range : Span) (src : Arena) (r : Ref) : Option Written :=
  src.reorderWithin policy range src.size r .empty

/-! ### Opportunities -/

/-- Adds the span to be shown for a node if it is an opportunity. For this it is put in canonical
form, in an arena that is not kept. -/
def foundAt? (policy : Policy) (a : Arena) (parent : Option Span) (i : Nat) (node : Node)
    (found : RangeSet) : Option RangeSet :=
  if node.shape.form.infixed?.isSome then do
    let result ← a.canonical? policy (some i) .empty
    some (if result.changed then found.insert (parent.getD node.span) else found)
  else some found

/-- Adds the spans to be shown for a tree under a parent, at most `n` nodes deep. -/
def foundWithin (policy : Policy) (a : Arena) : Nat → Option Span → Ref → RangeSet → Option RangeSet
  | _, _, none, found => some found
  | 0, _, some _, _ => none
  | n + 1, parent, some i, found => do
    let node ← a.node? (some i)
    let here ← a.foundAt? policy parent i node found
    node.shape.children.foldlM (fun found r => a.foundWithin policy n (some node.span) r found) here

/-- **The opportunities of a tree.** -/
def opportunities? (policy : Policy) (a : Arena) (r : Ref) : Option RangeSet :=
  a.foundWithin policy a.size none r .empty

end Arena

end OperandOrder
