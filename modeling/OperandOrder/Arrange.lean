import OperandOrder.Policy
import OperandOrder.Profile

/-!
# Arranging the operands of one node

`arrange` puts the operands of one operator in order. It looks at the profiles of the operands only,
so it is stated for operands that carry any payload: trees when a tree is put in canonical form,
references when the nodes of a store are.

The steps, for a flippable operator whose operands are all there:

1. the first two trade places if the first is larger and the pair is not exempt (`swapFront`);
2. if there are three or more operands, calls step back past other operands (`sinksBack`), then
   larger operands step back past smaller ones (`outgrows`), and the first two are looked at once
   more.

A swap of the first two turns the operator into its converse. The two orders of step 2 do not
combine into one: calls take no part in the order by size, and exempt operands are barriers in both.
Nor is either of them transitive, so each is run as `bubble`, sweeps of swaps of neighbours until a
sweep changes nothing, at most as many sweeps as there are operands.
-/

namespace OperandOrder

/-! ### Sweeps of swaps -/

/-- One sweep over `x :: xs`: `x` is carried to the right past every neighbour it swaps with, and a
neighbour it does not swap with is carried on in its place. -/
def sweepFrom {α : Type} (swaps : α → α → Bool) (x : α) : List α → List α × Bool
  | [] => ([x], false)
  | y :: ys =>
    if swaps x y then
      let later := sweepFrom swaps x ys
      (y :: later.1, true)
    else
      let later := sweepFrom swaps y ys
      (x :: later.1, later.2)

/-- One sweep from left to right, and whether it swapped anything. -/
def sweep {α : Type} (swaps : α → α → Bool) : List α → List α × Bool
  | [] => ([], false)
  | x :: xs => sweepFrom swaps x xs

/-- At most `n` sweeps, ending with the first that swaps nothing. -/
def sweepTimes {α : Type} (swaps : α → α → Bool) : Nat → List α → List α × Bool
  | 0, xs => (xs, false)
  | n + 1, xs =>
    let once := sweep swaps xs
    -- what later sweeps report does not matter once something was swapped
    if once.2 then ((sweepTimes swaps n once.1).1, true) else (xs, false)

/-- **Bubbling:** as many sweeps as there are elements, and whether anything was swapped. -/
def bubble {α : Type} (swaps : α → α → Bool) (xs : List α) : List α × Bool :=
  sweepTimes swaps xs.length xs

/-! ### The orders on operands -/

/-- An operand as the arrangement sees it: its profile, and what it stands for. -/
structure Operand (α : Type) where
  profile : Profile
  item : α

/-- Items with the profiles of the trees they stand for, place by place. -/
def Operand.measure {α : Type} (es : List Expr) (items : List α) : List (Operand α) :=
  List.zipWith (fun e item => ⟨e.profile, item⟩) es items

namespace Policy

/-- Whether the first two operands of a node trade places. -/
def swapsFront (policy : Policy) (op : BinaryOp) (left right : Profile) : Bool :=
  left.isLarger right && !policy.exemptsPair op left.form right.form

/-- Whether `left` is a call that steps back past `right`. Calls never pass each other. -/
def sinksBack (policy : Policy) (op : BinaryOp) (left right : Profile) : Bool :=
  left.form.isCall && !right.form.isCall && !policy.exempts op left.form &&
    !policy.exempts op right.form

/-- Whether an operand takes part in the order by size. -/
def movable (policy : Policy) (op : BinaryOp) (p : Profile) : Bool :=
  !p.form.isCall && !policy.exempts op p.form && !policy.exemptsRight op p.form

/-- Whether `left` steps back past the smaller `right`. -/
def outgrows (policy : Policy) (op : BinaryOp) (left right : Profile) : Bool :=
  policy.movable op left && policy.movable op right && left.isLarger right

end Policy

/-- **An arrangement:** an operator, its operands in order, and whether anything moved. -/
structure Arrangement (α : Type) where
  op : BinaryOp
  operands : List (Operand α)
  moved : Bool

namespace Arrangement

variable {α : Type}

/-- Swaps the first two operands if they belong the other way round. -/
def swapFront (policy : Policy) (a : Arrangement α) : Arrangement α :=
  match a.operands with
  | x :: y :: rest =>
    if policy.swapsFront a.op x.profile y.profile then ⟨a.op.converse, y :: x :: rest, true⟩ else a
  | _ => a

/-- Bubbles the operands by an order on their profiles. -/
def bubbleBy (swaps : Profile → Profile → Bool) (a : Arrangement α) : Arrangement α :=
  let sorted := bubble (fun x y => swaps x.profile y.profile) a.operands
  ⟨a.op, sorted.1, a.moved || sorted.2⟩

/-- The order of three or more operands: calls back, then by size, then the first two again. -/
def sortChain (policy : Policy) (a : Arrangement α) : Arrangement α :=
  let back := a.bubbleBy (policy.sinksBack a.op)
  let sized := back.bubbleBy (policy.outgrows a.op)
  sized.swapFront policy

end Arrangement

/-- **Arranging operands.** Nothing moves under an operator that is not flippable, or where an
operand is missing. -/
def arrange {α : Type} (policy : Policy) (op : BinaryOp) (operands : List (Operand α)) :
    Arrangement α :=
  let start : Arrangement α := ⟨op, operands, false⟩
  -- a missing operand has no profile worth comparing
  if !op.isFlippable || operands.any (·.profile.form.isMissing) then start
  else
    let front := start.swapFront policy
    if 2 < operands.length then front.sortChain policy else front

end OperandOrder
