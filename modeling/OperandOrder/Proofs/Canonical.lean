import OperandOrder.Proofs.Arrangement
import OperandOrder.Proofs.Trees

/-!
# Canonical form is a fixed point

`Expr.canonical_canonical`: a tree in canonical form is its own canonical form, and the second run
reports no change. There are two parts to it. At one node, an arrangement is arranged
(`arrange_arrange`). Between nodes, `Expr.outline_canonical` says that putting an operand in
canonical form changes nothing that its siblings are compared by: its weight, its span and its form,
up to the operator, stay as they are.

Reordering within a range goes down a tree in the same way, and puts the nodes that it selects in
canonical form. What the two have in common away from infix nodes is `Expr.Descends`.
-/

namespace OperandOrder

namespace Expr

variable (policy : Policy)

/-- An operand with its own profile and the outcome of putting it in canonical form. -/
def judged (e : Expr) : Operand Outcome := ⟨e.profile, e.canonical policy⟩

/-- The arrangement of the operands of a node, each in canonical form. -/
def arrangement (op : BinaryOp) (es : List Expr) : Arrangement Outcome :=
  arrange policy op (es.map (judged policy))

/-- **What canonical form makes of an infix node.** -/
theorem canonical_join (s : Span) (op : BinaryOp) (es : List Expr) :
    (join s op es).canonical policy =
      ⟨join s (arrangement policy op es).op
          ((arrangement policy op es).operands.map (·.item.expr)),
        es.any (fun e => (e.canonical policy).changed) || (arrangement policy op es).moved⟩ := by
  have harranged : (join s op es).canonical policy =
      .arranged policy s op es (es.map (canonical policy)) := by
    unfold join
    split
    · rw [canonical]
      rfl
    · rw [canonical, canonicalAll_eq_map]
  rw [harranged, Outcome.arranged, Operand.measure_map, List.any_map]
  rfl

/-- A chain of two operands comes out as a binary node, like the node it might have been. -/
theorem canonical_chain (s : Span) (op : BinaryOp) (es : List Expr) :
    (chain s op es).canonical policy = (join s op es).canonical policy := by
  unfold join
  split
  · rw [canonical, canonical]
    rfl
  · rfl

theorem arrangement_perm (op : BinaryOp) (es : List Expr) :
    (arrangement policy op es).operands.Perm (es.map (judged policy)) :=
  arrange_perm policy op _

/-- An operand of the arrangement stands for one of the trees it was made of. -/
theorem mem_arrangement {op : BinaryOp} {es : List Expr} {x : Operand Outcome}
    (h : x ∈ (arrangement policy op es).operands) : ∃ e ∈ es, judged policy e = x :=
  List.mem_map.mp ((arrangement_perm policy op es).mem_iff.mp h)

/-! ### What siblings see -/

/-- What canonical form keeps of the tree at a node. -/
structure Keeps (e e' : Expr) : Prop where
  span : e'.span = e.span
  weight : e'.weight = e.weight
  form : e'.form.outline = e.form.outline

/-- An infix node keeps what it shows to its parent, if its operands do. -/
theorem keeps_join (s : Span) (op : BinaryOp) (es : List Expr)
    (h : ∀ e ∈ es, Keeps e (e.canonical policy).expr) :
    Keeps (join s op es) ((join s op es).canonical policy).expr := by
  rw [canonical_join]
  refine ⟨by simp, ?_, by simp [Form.outline]⟩
  -- each operand keeps its weight, and the sum of the weights does not see the order
  have hweights : (es.map fun e => (e.canonical policy).expr.weight) = es.map weight :=
    List.map_congr_left fun e he => (h e he).weight
  have hperm := (arrangement_perm policy op es).map fun x => x.item.expr.weight
  rw [weight_join, weight_join]
  refine congrArg (1 + ·) (weights_eq_of_perm ?_)
  rw [List.map_map, ← hweights]
  rwa [List.map_map] at hperm

/-- Canonical form keeps the span, the weight and the outline of every tree. -/
theorem keeps_canonical (e : Expr) : Keeps e (e.canonical policy).expr := by
  induction e using induct with
  | absent => exact ⟨rfl, rfl, rfl⟩
  | error s => exact ⟨rfl, rfl, rfl⟩
  | literal s kind text => exact ⟨rfl, rfl, rfl⟩
  | ident s name => exact ⟨rfl, rfl, rfl⟩
  | call s receiver name args hreceiver hargs =>
    rw [canonical, canonicalAll_eq_map, List.map_map]
    have hweights : weights (args.map ((·.expr) ∘ canonical policy)) = weights args := by
      refine weights_eq_of_perm (.of_eq ?_)
      rw [List.map_map]
      exact List.map_congr_left fun e he => (hargs e he).weight
    refine ⟨rfl, ?_, by simp [form]⟩
    simp only [weight, hreceiver.weight, hweights]
  | field s receiver name hreceiver =>
    exact ⟨rfl, by simp only [canonical, weight, hreceiver.weight], rfl⟩
  | unary s op operand hoperand =>
    exact ⟨rfl, by simp only [canonical, weight, hoperand.weight], rfl⟩
  | paren s inner hinner =>
    exact ⟨rfl, by simp only [canonical, weight, hinner.weight], rfl⟩
  | binary s op left right hleft hright =>
    exact keeps_join policy s op [left, right] (forall_mem_pair hleft hright)
  | chain s op operands hoperands =>
    -- a chain of two operands turns into a binary node, which looks the same from outside
    have hjoin := keeps_join policy s op operands hoperands
    rw [canonical_chain]
    refine ⟨hjoin.span.trans (span_join s op operands), hjoin.weight.trans ?_,
      hjoin.form.trans (congrArg Form.outline (form_join s op operands))⟩
    rw [weight_join, weight]
  | conditional s cond yes no hcond hyes hno =>
    exact ⟨rfl, by simp only [canonical, weight, hcond.weight, hyes.weight, hno.weight], rfl⟩

/-- **Comparisons do not see canonical form.** -/
theorem outline_canonical (e : Expr) :
    (e.canonical policy).expr.profile.outline = e.profile.outline := by
  have h := keeps_canonical policy e
  simp only [Profile.outline, profile, h.span, h.weight, h.form]

/-! ### The fixed point -/

/-- The operand that a second run sees where the first one has left `x`. -/
def secondSight (x : Operand Outcome) : Operand Outcome := judged policy x.item.expr

/-- **A node with canonical operands that are arranged is in canonical form.** -/
theorem canonical_canonical_join (s : Span) (op : BinaryOp) (es : List Expr)
    (h : ∀ e ∈ es,
      ((e.canonical policy).expr).canonical policy = ⟨(e.canonical policy).expr, false⟩) :
    (((join s op es).canonical policy).expr).canonical policy =
      ⟨((join s op es).canonical policy).expr, false⟩ := by
  set a := arrangement policy op es with ha
  set es' := a.operands.map (·.item.expr) with hes'
  have hfirst : ((join s op es).canonical policy).expr = join s a.op es' := by
    rw [canonical_join]
  -- each operand is met again with the outline it had, and as its own canonical form
  have hagain : ∀ x ∈ a.operands, (secondSight policy x).item = ⟨x.item.expr, false⟩ := by
    intro x hx
    obtain ⟨e, he, rfl⟩ := mem_arrangement policy hx
    exact h e he
  have houtlines : Arrangement.KeepsOutlines (secondSight policy) a.operands := by
    intro x hx
    obtain ⟨e, he, rfl⟩ := mem_arrangement policy hx
    exact outline_canonical policy e
  -- so the second arrangement is the first one over again, and that moves nothing
  have hsecond : arrangement policy a.op es' =
      ⟨a.op, a.operands.map (secondSight policy), false⟩ := by
    have hops : es'.map (judged policy) = a.operands.map (secondSight policy) := by
      rw [hes', List.map_map]
      rfl
    rw [arrangement, hops, arrange_map policy a.op _ a.operands houtlines,
      show arrange policy a.op a.operands = ⟨a.op, a.operands, false⟩ from
        arrange_arrange policy op _]
    rfl
  have hstill : es'.any (fun e => (e.canonical policy).changed) = false := by
    rw [hes', List.any_map, List.any_eq_false]
    intro x hx
    rw [Function.comp_apply,
      show (canonical policy x.item.expr) = ⟨x.item.expr, false⟩ from hagain x hx]
    exact Bool.false_ne_true
  have hback : (a.operands.map (secondSight policy)).map (·.item.expr) = es' := by
    rw [List.map_map, hes']
    refine List.map_congr_left fun x hx => ?_
    rw [Function.comp_apply, hagain x hx]
  rw [hfirst, canonical_join, hsecond, hstill, hback]
  rfl

/-- **Canonical form is a fixed point,** and a second run says so. -/
theorem canonical_canonical (e : Expr) :
    ((e.canonical policy).expr).canonical policy = ⟨(e.canonical policy).expr, false⟩ := by
  -- Below infix nodes it is the induction hypothesis. They come out with operands that are
  -- canonical and in an order that stays.
  induction e using induct with
  | absent => rfl
  | error s => rfl
  | literal s kind text => rfl
  | ident s name => rfl
  | call s receiver name args hreceiver hargs =>
    have hmap : ((args.map (canonical policy)).map (·.expr)).map (canonical policy) =
        args.map fun e => ⟨(e.canonical policy).expr, false⟩ := by
      rw [List.map_map, List.map_map]
      exact List.map_congr_left hargs
    simp only [canonical, canonicalAll_eq_map, hreceiver]
    rw [hmap]
    simp [Function.comp_def]
  | field s receiver name hreceiver => simp only [canonical, hreceiver]
  | unary s op operand hoperand => simp only [canonical, hoperand]
  | paren s inner hinner => simp only [canonical, hinner]
  | binary s op left right hleft hright =>
    exact canonical_canonical_join policy s op [left, right] (forall_mem_pair hleft hright)
  | chain s op operands hoperands =>
    rw [canonical_chain]
    exact canonical_canonical_join policy s op operands hoperands
  | conditional s cond yes no hcond hyes hno => simp [canonical, hcond, hyes, hno]

/-! ### From node to node

What canonical form and reordering within a range do away from infix nodes: a leaf stays, and any
other node is put together again from what becomes of its children. -/

/-- **A function that goes down a tree** and leaves every node but the infix ones as it is. -/
structure Descends (f : Expr → Outcome) : Prop where
  absent : f .absent = ⟨.absent, false⟩
  error : ∀ s, f (.error s) = ⟨.error s, false⟩
  literal : ∀ s kind text, f (.literal s kind text) = ⟨.literal s kind text, false⟩
  ident : ∀ s name, f (.ident s name) = ⟨.ident s name, false⟩
  call : ∀ s receiver name args, f (.call s receiver name args) =
    ⟨.call s (f receiver).expr name (args.map fun e => (f e).expr),
      (f receiver).changed || args.any fun e => (f e).changed⟩
  field : ∀ s receiver name, f (.field s receiver name) =
    ⟨.field s (f receiver).expr name, (f receiver).changed⟩
  unary : ∀ s op operand,
    f (.unary s op operand) = ⟨.unary s op (f operand).expr, (f operand).changed⟩
  paren : ∀ s inner, f (.paren s inner) = ⟨.paren s (f inner).expr, (f inner).changed⟩
  conditional : ∀ s cond yes no, f (.conditional s cond yes no) =
    ⟨.conditional s (f cond).expr (f yes).expr (f no).expr,
      (f cond).changed || (f yes).changed || (f no).changed⟩

/-- Canonical form goes down the tree. -/
theorem descends_canonical : Descends (canonical policy) where
  absent := rfl
  error _ := rfl
  literal _ _ _ := rfl
  ident _ _ := rfl
  call s receiver name args := by
    rw [canonical, canonicalAll_eq_map]
    simp only [List.map_map, List.any_map, Function.comp_def]
  field _ _ _ := rfl
  unary _ _ _ := rfl
  paren _ _ := rfl
  conditional _ _ _ _ := rfl

variable (range : Span)

/-- Reordering within a range goes down the tree. -/
theorem descends_reorderWithin : Descends (reorderWithin policy range) where
  absent := rfl
  error _ := rfl
  literal _ _ _ := rfl
  ident _ _ := rfl
  call s receiver name args := by
    rw [reorderWithin, reorderAllWithin_eq_map]
    simp only [List.map_map, List.any_map, Function.comp_def]
  field _ _ _ := rfl
  unary _ _ _ := rfl
  paren _ _ := rfl
  conditional _ _ _ _ := rfl

/-! ### Within a range -/

/-- A selected node is put in canonical form. -/
theorem reorderWithin_of_selected {e : Expr} (h : e.isSelected range = true) :
    e.reorderWithin policy range = e.canonical policy := by
  cases e with
  | binary s op left right => rw [reorderWithin, if_pos h]
  | chain s op operands => rw [reorderWithin, if_pos h]
  | _ => exact absurd h (by simp [isSelected, infixed?, form, Form.infixed?])

/-- A node of two operands that is not selected is put together again. -/
theorem reorderWithin_binary_of_not_selected {s : Span} {op : BinaryOp} {left right : Expr}
    (h : (binary s op left right).isSelected range = false) :
    (binary s op left right).reorderWithin policy range =
      ⟨binary s op (left.reorderWithin policy range).expr (right.reorderWithin policy range).expr,
        (left.reorderWithin policy range).changed ||
          (right.reorderWithin policy range).changed⟩ := by
  rw [reorderWithin, if_neg (by rw [h]; exact Bool.false_ne_true)]

/-- A chain that is not selected is put together again. -/
theorem reorderWithin_chain_of_not_selected {s : Span} {op : BinaryOp} {es : List Expr}
    (h : (chain s op es).isSelected range = false) :
    (chain s op es).reorderWithin policy range =
      ⟨chain s op (es.map fun e => (e.reorderWithin policy range).expr),
        es.any fun e => (e.reorderWithin policy range).changed⟩ := by
  rw [reorderWithin, if_neg (by rw [h]; exact Bool.false_ne_true), reorderAllWithin_eq_map]
  simp only [List.map_map, List.any_map, Function.comp_def]

end Expr

end OperandOrder
