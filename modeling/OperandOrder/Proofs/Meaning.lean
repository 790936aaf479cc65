import OperandOrder.Proofs.Canonical

/-!
# Reordering keeps the meaning of a tree

An `Interpretation` gives a value to every leaf and every operator; a chain is evaluated as a left
fold. Nothing is asked of it but the laws that reordering relies on (`Interpretation.Lawful`): some
operators are commutative and associative, the two equalities are commutative, and a comparison is
the converse comparison of the operands the other way round.

A comparison of three or more operands side by side is not one that these laws speak about, so trees
are `Tame`: every chain of three or more operands has an operator under which all orders mean the
same, or one that is never reordered. Then `Interpretation.Lawful.eval_canonical` and
`Interpretation.Lawful.eval_reorderWithin` hold.

The step at one node is `Interpretation.Lawful.fold_arrange`. It says that the node does not mind
how its operands are arranged (`Interpretation.Indifferent`), and a tree of such nodes keeps its
value. There are three reasons why it holds: an operator that is not flippable has its operands left
alone, two operands change places at most once and with the converse operator, and for the rest any
order will do.
-/

namespace OperandOrder

/-- Whether any number of operands may stand in any order. -/
def BinaryOp.permutes : BinaryOp → Bool
  | .add | .mul | .bitAnd | .bitOr | .bitXor => true
  | _ => false

theorem BinaryOp.converse_of_permutes {op : BinaryOp} (h : op.permutes = true) :
    op.converse = op := by
  cases op <;> first | rfl | exact absurd h (by decide)

namespace Expr

/-- Whether the operands of an operator may be reordered: fewer than three, or any order will do, or
none is tried. -/
def OrderFree (op : BinaryOp) (n : Nat) : Prop :=
  n < 3 ∨ op.permutes = true ∨ op.isFlippable = false

/-- **Tame trees.** Every chain of three or more operands has an operator under which all orders
mean the same, or one that is not flippable. -/
def Tame (e : Expr) : Prop :=
  e.Every fun
    | .chain _ op operands => OrderFree op operands.length
    | _ => True

end Expr

/-- An operator that is its own converse stays what it is. -/
theorem op_arrange_of_converse {α : Type} (policy : Policy) {op : BinaryOp} (h : op.converse = op)
    (xs : List (Operand α)) : (arrange policy op xs).op = op := by
  rcases op_arrange policy op xs with hsame | hconverse
  · exact hsame
  · rw [hconverse, h]

/-! ### Interpretations -/

universe u

/-- **What the parts of a tree mean.** Names, literals and what is missing have a value of their
own; the value of a node is made of the values below it. -/
structure Interpretation (V : Type u) where
  absent : V
  error : Span → V
  literal : Span → LiteralKind → String → V
  ident : Span → String → V
  call : V → String → List V → V
  field : V → String → V
  unary : UnaryOp → V → V
  infixed : BinaryOp → V → V → V
  conditional : V → V → V → V
  /-- A chain without operands. -/
  nothing : BinaryOp → V

namespace Interpretation

variable {V : Type u} (I : Interpretation V)

/-- **Operands one after the other,** from the left. -/
def fold (op : BinaryOp) : List V → V
  | [] => I.nothing op
  | x :: xs => xs.foldl (I.infixed op) x

mutual

/-- **The value of a tree.** A parenthesis has the value of what is in it. -/
def eval : Expr → V
  | .absent => I.absent
  | .error s => I.error s
  | .literal s kind text => I.literal s kind text
  | .ident s name => I.ident s name
  | .call _ receiver name args => I.call (eval receiver) name (evalAll args)
  | .field _ receiver name => I.field (eval receiver) name
  | .unary _ op operand => I.unary op (eval operand)
  | .paren _ inner => eval inner
  | .binary _ op left right => I.infixed op (eval left) (eval right)
  | .chain _ op operands => I.fold op (evalAll operands)
  | .conditional _ cond yes no => I.conditional (eval cond) (eval yes) (eval no)

/-- The values of several trees. -/
def evalAll : List Expr → List V
  | [] => []
  | e :: es => eval e :: evalAll es

end

/-- **The laws that reordering relies on.** -/
structure Lawful : Prop where
  comm : ∀ op : BinaryOp, op.permutes = true → ∀ x y, I.infixed op x y = I.infixed op y x
  assoc : ∀ op : BinaryOp, op.permutes = true →
    ∀ x y z, I.infixed op (I.infixed op x y) z = I.infixed op x (I.infixed op y z)
  eq_comm : ∀ x y, I.infixed .eq x y = I.infixed .eq y x
  ne_comm : ∀ x y, I.infixed .ne x y = I.infixed .ne y x
  lt_gt : ∀ x y, I.infixed .lt x y = I.infixed .gt y x
  le_ge : ∀ x y, I.infixed .le x y = I.infixed .ge y x

/-- Natural numbers as values: a comparison is one or zero, and a name is worth its length. -/
def naturals : Interpretation Nat where
  absent := 0
  error _ := 0
  literal _ _ text := text.toNat?.getD 0
  ident _ name := name.length
  call receiver name args := receiver + name.length + args.foldr (· + ·) 0
  field receiver name := receiver + name.length
  unary _ x := x
  infixed
    | .mul, x, y => x * y
    | .div, x, y => x / y
    | .rem, x, y => x % y
    | .add, x, y => x + y
    | .sub, x, y => x - y
    | .shl, x, y => x <<< y
    | .shr, x, y | .ushr, x, y => x >>> y
    | .lt, x, y => (decide (x < y)).toNat
    | .gt, x, y => (decide (y < x)).toNat
    | .le, x, y => (decide (x ≤ y)).toNat
    | .ge, x, y => (decide (y ≤ x)).toNat
    | .eq, x, y => (decide (x = y)).toNat
    | .ne, x, y => (decide (x ≠ y)).toNat
    | .bitAnd, x, y => x &&& y
    | .bitXor, x, y => x ^^^ y
    | .bitOr, x, y => x ||| y
    | .and, x, y => if x = 0 then x else y
    | .or, x, y => if x = 0 then y else x
  conditional x y z := if x = 0 then z else y
  nothing _ := 0

/-- **The natural numbers are a lawful interpretation:** each law that is asked for holds of them.
-/
theorem lawful_naturals : naturals.Lawful where
  comm op h x y := by
    cases op with
    | add => exact Nat.add_comm x y
    | mul => exact Nat.mul_comm x y
    | bitAnd => exact Nat.and_comm x y
    | bitXor => exact Nat.xor_comm x y
    | bitOr => exact Nat.or_comm x y
    | _ => exact absurd h (by decide)
  assoc op h x y z := by
    cases op with
    | add => exact Nat.add_assoc x y z
    | mul => exact Nat.mul_assoc x y z
    | bitAnd => exact Nat.and_assoc x y z
    | bitXor => exact Nat.xor_assoc x y z
    | bitOr => exact Nat.or_assoc x y z
    | _ => exact absurd h (by decide)
  eq_comm x y := congrArg Bool.toNat (decide_eq_decide.mpr ⟨Eq.symm, Eq.symm⟩)
  ne_comm x y := congrArg Bool.toNat (decide_eq_decide.mpr ⟨Ne.symm, Ne.symm⟩)
  lt_gt _ _ := rfl
  le_ge _ _ := rfl

variable {I}

theorem evalAll_eq_map (es : List Expr) : I.evalAll es = es.map I.eval := by
  induction es with
  | nil => rfl
  | cons e es ih => rw [evalAll, ih, List.map_cons]

/-- The value of an infix node, however many operands it has. -/
@[simp] theorem eval_join (s : Span) (op : BinaryOp) (es : List Expr) :
    I.eval (.join s op es) = I.fold op (es.map I.eval) := by
  unfold Expr.join
  split
  · rfl
  · rw [eval, evalAll_eq_map]

/-! ### One node -/

/-- Two operands may trade places under the converse operator. -/
theorem Lawful.infixed_converse (hI : I.Lawful) {op : BinaryOp} (h : op.isFlippable = true)
    (x y : V) : I.infixed op.converse y x = I.infixed op x y := by
  cases op with
  | lt => exact (hI.lt_gt x y).symm
  | gt => exact hI.lt_gt y x
  | le => exact (hI.le_ge x y).symm
  | ge => exact hI.le_ge y x
  | eq => exact hI.eq_comm y x
  | ne => exact hI.ne_comm y x
  | add | mul | bitAnd | bitOr | bitXor => exact hI.comm _ rfl y x
  | div | rem | sub | shl | shr | ushr | and | or => exact absurd h (by decide)

/-- The order does not matter, if the operator does not mind. -/
theorem Lawful.fold_perm (hI : I.Lawful) {op : BinaryOp} (h : op.permutes = true) {xs ys : List V}
    (hperm : xs.Perm ys) : I.fold op xs = I.fold op ys := by
  have hright : ∀ x y z, I.infixed op (I.infixed op x y) z = I.infixed op (I.infixed op x z) y := by
    intro x y z
    rw [hI.assoc op h, hI.comm op h y z, ← hI.assoc op h]
  have : RightCommutative (I.infixed op) := ⟨hright⟩
  induction hperm with
  | nil => rfl
  -- behind the first operand the order of the others is that of a fold; the first one is special
  | cons x hperm _ => exact hperm.foldl_eq x
  | swap x y zs => exact congrArg (zs.foldl (I.infixed op)) (hI.comm op h y x)
  | trans _ _ ih ih' => exact ih.trans ih'

/-- **Arranging operands keeps the value of their node.** -/
theorem Lawful.fold_arrange (hI : I.Lawful) {α : Type} (policy : Policy) {op : BinaryOp}
    {xs : List (Operand α)} (h : Expr.OrderFree op xs.length) (value : Operand α → V) :
    I.fold (arrange policy op xs).op ((arrange policy op xs).operands.map value) =
      I.fold op (xs.map value) := by
  by_cases hfixed : isFixed op xs = true
  · rw [arrange_of_isFixed policy op hfixed]
  have hfixed : isFixed op xs = false := by simpa using hfixed
  rcases h with hfew | hpermutes | hstill
  · -- up to two operands: there is only the swap in front, which flips the operator
    rw [arrange_of_not_isFixed policy op hfixed, if_neg (by omega)]
    rcases Arrangement.swapFront_cases policy ⟨op, xs, false⟩ with hsame
      | ⟨x, y, rest, hxs, -, hswapped⟩
    · rw [hsame]
    · obtain rfl : xs = x :: y :: rest := hxs
      obtain rfl : rest = [] := List.eq_nil_of_length_eq_zero (by simp at hfew; omega)
      rw [hswapped]
      have hflip : op.isFlippable = true := ((isFixed_eq_false_iff op).mp hfixed).1
      exact hI.infixed_converse hflip (value x) (value y)
  · -- any order will do, and the operator is its own converse
    rw [op_arrange_of_converse policy (BinaryOp.converse_of_permutes hpermutes)]
    exact hI.fold_perm hpermutes ((arrange_perm policy op xs).map value)
  · -- the operator is not flippable, so nothing would have moved
    exact absurd hfixed (by simp [isFixed, hstill])

/-! ### Trees -/

variable (policy : Policy)

/-- **A node whose value does not mind** how its operands are arranged, whatever their
values are. -/
def Indifferent (I : Interpretation V) (op : BinaryOp) (es : List Expr) : Prop :=
  ∀ value : Operand Outcome → V,
    I.fold (Expr.arrangement policy op es).op ((Expr.arrangement policy op es).operands.map value) =
      I.fold op ((es.map (Expr.judged policy)).map value)

theorem Lawful.indifferent_of_orderFree (hI : I.Lawful) {op : BinaryOp} {es : List Expr}
    (h : Expr.OrderFree op es.length) : I.Indifferent policy op es :=
  hI.fold_arrange policy (by rwa [List.length_map])

/-- A node whose operands keep their values keeps its own. -/
theorem Indifferent.eval_canonical_join {op : BinaryOp} {es : List Expr}
    (hop : I.Indifferent policy op es) (s : Span)
    (h : ∀ e ∈ es, I.eval (e.canonical policy).expr = I.eval e) :
    I.eval ((Expr.join s op es).canonical policy).expr = I.fold op (es.map I.eval) := by
  have harranged := hop fun x => I.eval x.item.expr
  have hvalues : ((es.map (Expr.judged policy)).map fun x => I.eval x.item.expr) =
      es.map I.eval := by
    rw [List.map_map]
    exact List.map_congr_left h
  rw [hvalues] at harranged
  rw [Expr.canonical_join, eval_join, List.map_map]
  exact harranged

/-- **What goes down a tree keeps its meaning,** if that is so at infix nodes: the value of a node
depends on its children through their values only. -/
theorem eval_of_descends {f : Expr → Outcome} (hf : Expr.Descends f) {p : Expr → Prop}
    (hinfixed : ∀ e : Expr, e.infixed?.isSome = true → e.Every p →
      (∀ x ∈ e.operands, I.eval (f x).expr = I.eval x) → I.eval (f e).expr = I.eval e)
    (e : Expr) (h : e.Every p) : I.eval (f e).expr = I.eval e := by
  induction e using Expr.induct with
  | absent => rw [hf.absent]
  | error s => rw [hf.error]
  | literal s kind text => rw [hf.literal]
  | ident s name => rw [hf.ident]
  | call s receiver name args hreceiver hargs =>
    obtain ⟨-, hr, has⟩ := h
    have hvalues : args.map (fun e => I.eval (f e).expr) = args.map I.eval :=
      List.map_congr_left fun e he => hargs e he ((Expr.everyOf_iff _ _).mp has e he)
    rw [hf.call]
    simp only [eval, evalAll_eq_map, List.map_map, Function.comp_def, hreceiver hr, hvalues]
  | field s receiver name hreceiver =>
    rw [hf.field]
    exact congrArg (I.field · name) (hreceiver h.2)
  | unary s op operand hoperand =>
    rw [hf.unary]
    exact congrArg (I.unary op) (hoperand h.2)
  | paren s inner hinner =>
    rw [hf.paren]
    exact hinner h.2
  | binary s op left right hleft hright =>
    exact hinfixed _ rfl h (Expr.forall_mem_pair (hleft h.2.1) (hright h.2.2))
  | chain s op operands hoperands =>
    exact hinfixed _ rfl h fun e he => hoperands e he ((Expr.everyOf_iff _ _).mp h.2 e he)
  | conditional s cond yes no hcond hyes hno =>
    obtain ⟨-, hc, hy, hn⟩ := h
    rw [hf.conditional]
    simp only [eval, hcond hc, hyes hy, hno hn]

/-- Canonical form keeps the meaning, if no chain minds. -/
theorem Lawful.eval_canonical_of_indifferent (hI : I.Lawful) (e : Expr)
    (h : e.Every fun
      | .chain _ op operands => I.Indifferent policy op operands
      | _ => True) :
    I.eval (e.canonical policy).expr = I.eval e := by
  refine eval_of_descends (Expr.descends_canonical policy) (fun e hinfixed h hoperands => ?_) e h
  cases e with
  | binary s op left right =>
    have hpair : I.Indifferent policy op [left, right] :=
      hI.indifferent_of_orderFree policy (.inl (by simp))
    exact hpair.eval_canonical_join policy s hoperands
  | chain s op operands =>
    rw [Expr.canonical_chain, eval, evalAll_eq_map]
    exact Indifferent.eval_canonical_join policy h.1 s hoperands
  | _ => exact absurd hinfixed Bool.false_ne_true

/-- **Canonical form keeps the meaning.** -/
theorem Lawful.eval_canonical (hI : I.Lawful) (e : Expr) (htame : e.Tame) :
    I.eval (e.canonical policy).expr = I.eval e := by
  refine hI.eval_canonical_of_indifferent policy e (htame.imp fun x hx => ?_)
  cases x with
  | chain s op operands => exact hI.indifferent_of_orderFree policy hx
  | _ => trivial

/-- **Reordering within a range keeps the meaning.** A node that the range selects is put in
canonical form; any other keeps its operator and the order of its operands. -/
theorem Lawful.eval_reorderWithin (hI : I.Lawful) (range : Span) (e : Expr) (htame : e.Tame) :
    I.eval (e.reorderWithin policy range).expr = I.eval e := by
  refine eval_of_descends (Expr.descends_reorderWithin policy range)
    (fun e hinfixed htame hoperands => ?_) e htame
  by_cases hselected : e.isSelected range = true
  · rw [Expr.reorderWithin_of_selected policy range hselected]
    exact hI.eval_canonical policy e htame
  have hselected : e.isSelected range = false := eq_false_of_ne_true hselected
  cases e with
  | binary s op left right =>
    obtain ⟨hleft, hright⟩ := List.forall_mem_cons.mp hoperands
    rw [Expr.reorderWithin_binary_of_not_selected policy range hselected, eval, hleft,
      List.forall_mem_singleton.mp hright]
    rfl
  | chain s op operands =>
    rw [Expr.reorderWithin_chain_of_not_selected policy range hselected, eval, eval,
      evalAll_eq_map, evalAll_eq_map, List.map_map]
    exact congrArg (I.fold op) (List.map_congr_left hoperands)
  | _ => exact absurd hinfixed Bool.false_ne_true

end Interpretation

end OperandOrder
