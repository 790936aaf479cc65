import OperandOrder.Proofs.Opportunities

/-!
# The nodes of a tree

`Expr.HasNode e x` says that `x` is a node of `e`: the root, or a node of one of its children. With
it, what is said by walking a tree is said at once:

* `Expr.changed_iff`: canonical form changes a tree if and only if there is a node in it whose
  operands move;
* `Expr.mem_shown_iff`: the spans that are shown are those of the parents of opportunities, and the
  given one if the root is an opportunity itself.

Whether the operands of a node move depends on their profiles only, so it can be told without
putting them in canonical form first (`Expr.moves`).
-/

namespace OperandOrder

namespace Expr

/-- The children of a node, left to right. A call without a receiver has its arguments only. -/
def children : Expr → List Expr
  | .absent | .error _ | .literal .. | .ident .. => []
  | .call _ receiver _ args => if receiver = .absent then args else receiver :: args
  | .field _ receiver _ => [receiver]
  | .unary _ _ operand => [operand]
  | .paren _ inner => [inner]
  | .binary _ _ left right => [left, right]
  | .chain _ _ operands => operands
  | .conditional _ cond yes no => [cond, yes, no]

/-- The children of a call are its receiver, if it has one, and its arguments. -/
theorem mem_children_call {s : Span} {receiver : Expr} {name : String} {args : List Expr}
    {x : Expr} :
    x ∈ (call s receiver name args).children ↔ (x = receiver ∧ receiver ≠ .absent) ∨ x ∈ args := by
  rw [children]
  split
  next h => simp [h]
  next h => simp [h]

theorem children_join (s : Span) (op : BinaryOp) (es : List Expr) :
    (join s op es).children = es := by
  unfold join
  split <;> rfl

/-- **Induction on a tree,** with one hypothesis for all children. -/
theorem induct_children {motive : Expr → Prop}
    (step : ∀ e : Expr, (∀ x ∈ e.children, motive x) → motive e) (e : Expr) : motive e := by
  induction e using induct with
  | absent => exact step _ nofun
  | error s => exact step _ nofun
  | literal s kind text => exact step _ nofun
  | ident s name => exact step _ nofun
  | call s receiver name args hreceiver hargs =>
    refine step _ fun x hx => ?_
    -- a receiver counts as a child only if it is there
    rcases mem_children_call.mp hx with ⟨rfl, -⟩ | hx
    · exact hreceiver
    · exact hargs x hx
  | field s receiver name hreceiver => exact step _ (List.forall_mem_singleton.mpr hreceiver)
  | unary s op operand hoperand => exact step _ (List.forall_mem_singleton.mpr hoperand)
  | paren s inner hinner => exact step _ (List.forall_mem_singleton.mpr hinner)
  | binary s op left right hleft hright => exact step _ (forall_mem_pair hleft hright)
  | chain s op operands hoperands => exact step _ hoperands
  | conditional s cond yes no hcond hyes hno =>
    exact step _ (List.forall_mem_cons.mpr ⟨hcond, forall_mem_pair hyes hno⟩)

/-- **The nodes of a tree.** -/
inductive HasNode : Expr → Expr → Prop
  | self (e : Expr) : HasNode e e
  | inner {e child x : Expr} (hchild : child ∈ e.children) (h : HasNode child x) : HasNode e x

/-- A node is the root, or a node of a child. -/
theorem hasNode_iff {e x : Expr} : e.HasNode x ↔ x = e ∨ ∃ child ∈ e.children, child.HasNode x := by
  constructor
  · intro h
    cases h with
    | self => exact .inl rfl
    | inner hchild h => exact .inr ⟨_, hchild, h⟩
  · rintro (rfl | ⟨child, hchild, h⟩)
    · exact .self x
    · exact .inner hchild h

/-- A child of a node is a node. -/
theorem HasNode.child {e x y : Expr} (h : e.HasNode y) (hx : x ∈ y.children) : e.HasNode x := by
  induction h with
  | self e => exact .inner hx (.self x)
  | inner hchild _ ih => exact .inner hchild (ih hx)

/-- A node is the root, or a child of a node. -/
theorem HasNode.eq_or_child {e x : Expr} (h : e.HasNode x) :
    x = e ∨ ∃ y, e.HasNode y ∧ x ∈ y.children := by
  induction h with
  | self e => exact .inl rfl
  | @inner e child x hchild _ ih =>
    rcases ih with rfl | ⟨y, hy, hx⟩
    · exact .inr ⟨e, .self e, hchild⟩
    · exact .inr ⟨y, .inner hchild hy, hx⟩

/-- What holds of every node of a tree holds of every node of its children. -/
theorem Every.child {p : Expr → Prop} {e x : Expr} (h : e.Every p) (hx : x ∈ e.children) :
    x.Every p := by
  cases e with
  | call s receiver name args =>
    obtain ⟨-, hreceiver, hargs⟩ := h
    rcases mem_children_call.mp hx with ⟨rfl, -⟩ | hx
    · exact hreceiver
    · exact (everyOf_iff p args).mp hargs x hx
  | field s receiver name => exact List.mem_singleton.mp hx ▸ h.2
  | unary s op operand => exact List.mem_singleton.mp hx ▸ h.2
  | paren s inner => exact List.mem_singleton.mp hx ▸ h.2
  | binary s op left right => exact forall_mem_pair h.2.1 h.2.2 x hx
  | chain s op operands => exact (everyOf_iff p operands).mp h.2 x hx
  | conditional s cond yes no =>
    exact List.forall_mem_cons.mpr ⟨h.2.1, forall_mem_pair h.2.2.1 h.2.2.2⟩ x hx
  | _ => exact absurd hx List.not_mem_nil

theorem Every.node {p : Expr → Prop} {e x : Expr} (h : e.Every p) (hx : e.HasNode x) : p x := by
  induction hx with
  | self e => exact h.self
  | inner hchild _ ih => exact ih (h.child hchild)

/-- What holds of a node and of all nodes below its children holds all over. The receiver of a plain
call is not among the children. -/
theorem every_of_children {p : Expr → Prop} {e : Expr} (habsent : p .absent) (he : p e)
    (h : ∀ x ∈ e.children, x.Every p) : e.Every p := by
  cases e with
  | call s receiver name args =>
    refine ⟨he, ?_, (everyOf_iff p args).mpr fun x hx => h x (mem_children_call.mpr (.inr hx))⟩
    by_cases hplain : receiver = .absent
    · rwa [hplain]
    · exact h receiver (mem_children_call.mpr (.inl ⟨rfl, hplain⟩))
  | field s receiver name => exact ⟨he, List.forall_mem_singleton.mp h⟩
  | unary s op operand => exact ⟨he, List.forall_mem_singleton.mp h⟩
  | paren s inner => exact ⟨he, List.forall_mem_singleton.mp h⟩
  | binary s op left right => exact ⟨he, h left (by simp [children]), h right (by simp [children])⟩
  | chain s op operands => exact ⟨he, (everyOf_iff p operands).mpr h⟩
  | conditional s cond yes no =>
    exact ⟨he, h cond (by simp [children]), h yes (by simp [children]), h no (by simp [children])⟩
  | _ => exact he

/-! ### Where operands move -/

/-- Whether arranging the operands of a node moves any of them. -/
def moves (policy : Policy) (e : Expr) : Bool :=
  match e.infixed? with
  | some op => (arrange policy op (e.operands.map fun x => (⟨x.profile, ()⟩ : Operand Unit))).moved
  | none => false

variable (policy : Policy)

/-- Moves can be told by the profiles of the operands. -/
theorem moved_arrangement (op : BinaryOp) (es : List Expr) :
    (arrangement policy op es).moved =
      (arrange policy op (es.map fun x => (⟨x.profile, ()⟩ : Operand Unit))).moved := by
  have hforget : (es.map fun x => (⟨x.profile, ()⟩ : Operand Unit)) =
      (es.map (judged policy)).map fun x => ⟨x.profile, ()⟩ := by
    rw [List.map_map]
    rfl
  rw [hforget, arrange_map policy op (fun x : Operand Outcome => (⟨x.profile, ()⟩ : Operand Unit)) _
    fun _ _ => rfl]
  rfl

/-- **A node is changed** if its operands move or one of its children is changed. -/
theorem changed_eq (e : Expr) :
    (e.canonical policy).changed =
      (e.moves policy || e.children.any fun x => (x.canonical policy).changed) := by
  have hc := descends_canonical policy
  cases e with
  | absent => rfl
  | error s => rfl
  | literal s kind text => rfl
  | ident s name => rfl
  | call s receiver name args =>
    -- a plain call has a receiver that nothing changes
    have hchildren : (call s receiver name args).children.any
        (fun x => (x.canonical policy).changed) =
        ((receiver.canonical policy).changed || args.any fun x =>
          (x.canonical policy).changed) := by
      rw [children]
      split
      next hplain =>
        rw [hplain]
        rfl
      next => rfl
    rw [hc.call, hchildren]
    rfl
  | field s receiver name => simp [hc.field, moves, infixed?, form, Form.infixed?, children]
  | unary s op operand => simp [hc.unary, moves, infixed?, form, Form.infixed?, children]
  | paren s inner => simp [hc.paren, moves, infixed?, form, Form.infixed?, children]
  | binary s op left right =>
    -- what `join` makes of two operands
    have hjoin := congrArg Outcome.changed (canonical_join policy s op [left, right])
    rw [moved_arrangement, Bool.or_comm] at hjoin
    exact hjoin
  | chain s op operands =>
    rw [canonical_chain, canonical_join, moved_arrangement, Bool.or_comm]
    rfl
  | conditional s cond yes no =>
    simp [hc.conditional, moves, infixed?, form, Form.infixed?, children, Bool.or_assoc]

/-- **A tree is changed if and only if the operands of some node of it move.** -/
theorem changed_iff (e : Expr) :
    (e.canonical policy).changed = true ↔ ∃ x, e.HasNode x ∧ x.moves policy = true := by
  induction e using induct_children with
  | step e ih =>
    rw [changed_eq, Bool.or_eq_true, List.any_eq_true]
    constructor
    · rintro (hmoves | ⟨child, hchild, hchanged⟩)
      · exact ⟨e, .self e, hmoves⟩
      · obtain ⟨x, hx, hmoves⟩ := (ih child hchild).mp hchanged
        exact ⟨x, .inner hchild hx, hmoves⟩
    · rintro ⟨x, hx, hmoves⟩
      rcases hasNode_iff.mp hx with rfl | ⟨child, hchild, hx⟩
      · exact .inl hmoves
      · exact .inr ⟨child, hchild, (ih child hchild).mpr ⟨x, hx, hmoves⟩⟩

/-! ### What is shown -/

/-- What is shown of a tree, from its children. -/
theorem shown_eq (e : Expr) (parent : Span) :
    e.shown policy parent =
      e.shownUnder policy parent ++ e.children.flatMap (shown policy e.span) := by
  cases e with
  | absent => rfl
  | error s => rfl
  | literal s kind text => rfl
  | ident s name => rfl
  | call s receiver name args =>
    -- nothing is shown of the receiver of a plain call
    have hchildren : (call s receiver name args).children.flatMap (shown policy s) =
        receiver.shown policy s ++ args.flatMap (shown policy s) := by
      rw [children]
      split
      next hplain =>
        rw [hplain]
        rfl
      next => rfl
    rw [shown, shownAll_eq_flatMap, ← hchildren]
    rfl
  | field s receiver name => exact (List.append_nil _).symm
  | unary s op operand => exact (List.append_nil _).symm
  | paren s inner => exact (List.append_nil _).symm
  | binary s op left right =>
    rw [shown, List.append_assoc]
    simp [children, span]
  | chain s op operands =>
    rw [shown, shownAll_eq_flatMap]
    rfl
  | conditional s cond yes no =>
    rw [shown, List.append_assoc]
    simp [children, span, shownUnder, isOpportunity, infixed?, form, Form.infixed?]

/-- **What is shown:** the given span if the root is an opportunity, and for every opportunity below
it the span of its parent. -/
theorem mem_shown_iff {e : Expr} {parent s : Span} :
    s ∈ e.shown policy parent ↔ (e.isOpportunity policy = true ∧ s = parent) ∨
      ∃ y x, e.HasNode y ∧ x ∈ y.children ∧ x.isOpportunity policy = true ∧ s = y.span := by
  have hunder : ∀ (x : Expr) (parent : Span), s ∈ x.shownUnder policy parent ↔
      x.isOpportunity policy = true ∧ s = parent := by
    intro x parent
    rw [shownUnder]
    split <;> simp [*]
  induction e using induct_children generalizing parent with
  | step e ih =>
    rw [shown_eq, List.mem_append, hunder, List.mem_flatMap]
    refine or_congr_right ?_
    -- an opportunity is shown at its parent, which is met first from the root
    constructor
    · rintro ⟨child, hchild, hs⟩
      rcases (ih child hchild).mp hs with ⟨hopportunity, rfl⟩ | ⟨y, x, hy, hx⟩
      · exact ⟨e, child, .self e, hchild, hopportunity, rfl⟩
      · exact ⟨y, x, .inner hchild hy, hx⟩
    · rintro ⟨y, x, hy, hx, hopportunity, rfl⟩
      rcases hasNode_iff.mp hy with rfl | ⟨child, hchild, hy⟩
      · exact ⟨x, hx, (ih x hx).mpr (.inl ⟨hopportunity, rfl⟩)⟩
      · exact ⟨child, hchild, (ih child hchild).mpr (.inr ⟨y, x, hy, hx, hopportunity, rfl⟩)⟩

end Expr

end OperandOrder
