import OperandOrder.Parser
import OperandOrder.Proofs.Exchanges
import OperandOrder.Proofs.Store.Reordering

/-!
# Canonical form only permutes operands

`Expr.Permuted e e'` says what canonical form may make of `e`: where the operator is flippable and
no operand is missing, the operands come in another order, under the operator or its converse;
everything else is kept, with its span and with its children in their order.
`Store.canonical?_permuted` says that a tree in a well-formed store is permuted so.

No operand changes its place without cause. An operand that comes out behind one that it stood
before has given way to it (`Expr.GivesWay`): it is a method call and the other is none, or it is
the larger one and the other is no call. The steps make exchanges for these causes only
(`Expr.givesWay_of_passes`), between neighbours, and `Exchanges.reorderedBy` makes of that a
statement about any two operands. So operands that are not calls exchange places only if one is
larger than the other. A call does step back past an operand of its own size
(`Store.call_behind_equals`).
-/

namespace OperandOrder

namespace Expr

/-- **The causes to step back** behind `y`. -/
def GivesWay (x y : Expr) : Prop :=
  (x.form.isCall = true ∧ y.form.isCall = false) ∨
    (x.profile.isLarger y.profile = true ∧ y.form.isCall = false)

/-- **What canonical form may make of a tree.** An operand or argument is made of the one in
the same place of the list that is named first; only `arranged` puts the operands in another
order before. -/
inductive Permuted : Expr → Expr → Prop
  | absent : Permuted .absent .absent
  | error (s : Span) : Permuted (.error s) (.error s)
  | literal (s : Span) (kind : LiteralKind) (text : String) :
      Permuted (.literal s kind text) (.literal s kind text)
  | ident (s : Span) (name : String) : Permuted (.ident s name) (.ident s name)
  | call (s : Span) (name : String) {receiver receiver' : Expr} {args args' : List Expr}
      (hreceiver : Permuted receiver receiver') (hargs : List.Forall₂ Permuted args args') :
      Permuted (.call s receiver name args) (.call s receiver' name args')
  | field (s : Span) (name : String) {receiver receiver' : Expr}
    (hreceiver : Permuted receiver receiver') :
      Permuted (.field s receiver name) (.field s receiver' name)
  | unary (s : Span) (op : UnaryOp) {operand operand' : Expr}
    (hoperand : Permuted operand operand') : Permuted (.unary s op operand) (.unary s op operand')
  | paren (s : Span) {inner inner' : Expr} (hinner : Permuted inner inner') :
      Permuted (.paren s inner) (.paren s inner')
  | conditional (s : Span) {cond cond' yes yes' no no' : Expr} (hcond : Permuted cond cond')
      (hyes : Permuted yes yes') (hno : Permuted no no') :
      Permuted (.conditional s cond yes no) (.conditional s cond' yes' no')
  /-- An infix node that keeps the order of its operands. -/
  | kept {e : Expr} {op : BinaryOp} {es : List Expr} (hop : e.infixed? = some op)
      (hes : List.Forall₂ Permuted e.operands es) : Permuted e (join e.span op es)
  /-- An infix node that may be arranged. -/
  | arranged {e : Expr} {op op' : BinaryOp} {order es : List Expr} (hop : e.infixed? = some op)
      (hflippable : op.isFlippable = true) (hpresent : ∀ x ∈ e.operands, x.isMissing = false)
      (hop' : op' = op ∨ op' = op.converse) (horder : ReorderedBy GivesWay e.operands order)
      (hes : List.Forall₂ Permuted order es) : Permuted e (join e.span op' es)

variable (policy : Policy)

/-! ### One node -/

/-- **Every step has a cause.** -/
theorem givesWay_of_passes {op : BinaryOp} {x y : Expr}
    (h : policy.Passes op (judged policy x) (judged policy y)) : x.GivesWay y := by
  obtain ⟨hcause, hcall, -, -⟩ := h.cause
  exact hcause.imp (fun hx => ⟨hx, hcall⟩) fun hlarger => ⟨hlarger, hcall⟩

/-- The operands of an arrangement are those of the node in another order. -/
theorem exists_order (op : BinaryOp) (es : List Expr) :
    ∃ order, ReorderedBy GivesWay es order ∧
      order.map (judged policy) = (arrangement policy op es).operands := by
  obtain ⟨order, hexchanges, hread⟩ := (exchanges_arrange policy op (es.map (judged policy))).lift
    (judged policy) rfl
  exact ⟨order, (hexchanges.imp fun _ _ => givesWay_of_passes policy).reorderedBy, hread⟩

theorem forall₂_canonical {es : List Expr} (h : ∀ x ∈ es, Permuted x (x.canonical policy).expr) :
    List.Forall₂ Permuted es (es.map fun x => (x.canonical policy).expr) := by
  rw [List.forall₂_map_right_iff, List.forall₂_same]
  exact h

/-- An infix node whose operands are permuted in canonical form. -/
theorem permuted_canonical_infix {e : Expr} {op : BinaryOp} (hop : e.infixed? = some op)
    (hcanonical : e.canonical policy = (join e.span op e.operands).canonical policy)
    (h : ∀ x ∈ e.operands, Permuted x (x.canonical policy).expr) :
    Permuted e (e.canonical policy).expr := by
  rw [hcanonical, canonical_join]
  by_cases hfixed : isFixed op (e.operands.map (judged policy)) = true
  · -- nothing can move, whatever the operands look like
    rw [arrangement, arrange_of_isFixed policy op hfixed, List.map_map]
    exact .kept hop (forall₂_canonical policy h)
  · obtain ⟨hflippable, hpresent⟩ := (isFixed_eq_false_iff op).mp (by simpa using hfixed)
    obtain ⟨order, horder, hread⟩ := exists_order policy op e.operands
    have hpermuted : ∀ x ∈ order, Permuted x (x.canonical policy).expr :=
      fun x hx => h x (horder.perm.mem_iff.mp hx)
    -- each operand is put in canonical form where it stands in the new order
    rw [← hread, List.map_map]
    exact .arranged hop hflippable (List.forall_mem_map.mp hpresent) (op_arrange policy op _) horder
      (forall₂_canonical policy hpermuted)

/-! ### Trees -/

/-- **Canonical form only permutes operands.** -/
theorem permuted_canonical (e : Expr) : Permuted e (e.canonical policy).expr := by
  induction e using induct with
  | absent => exact .absent
  | error s => exact .error s
  | literal s kind text => exact .literal s kind text
  | ident s name => exact .ident s name
  | call s receiver name args hreceiver hargs =>
    rw [canonical, canonicalAll_eq_map, List.map_map]
    exact .call s name hreceiver (forall₂_canonical policy hargs)
  | field s receiver name hreceiver => exact .field s name hreceiver
  | unary s op operand hoperand => exact .unary s op hoperand
  | paren s inner hinner => exact .paren s hinner
  | binary s op left right hleft hright =>
    exact permuted_canonical_infix policy rfl rfl (forall_mem_pair hleft hright)
  | chain s op operands hoperands =>
    exact permuted_canonical_infix policy rfl (canonical_chain policy s op operands) hoperands
  | conditional s cond yes no hcond hyes hno => exact .conditional s hcond hyes hno

end Expr

namespace Store

/-- **Canonical form only permutes, and only with cause.** A tree in a well-formed store has a
canonical form, and it differs from the tree in the order of operands only. -/
theorem canonical?_permuted (policy : Policy) {src : Store} {r : Ref} (hsrc : src.WellFormed)
    (hr : src.Holds r) (dst : Store) :
    ∃ (t : Store × Ref) (changed : Bool) (e e' : Expr), src.tree? r = some e ∧
      src.canonical? policy r dst = some (t, changed) ∧ t.1.tree? t.2 = some e' ∧
      e.Permuted e' := by
  obtain ⟨e, he⟩ := exists_tree? hsrc hr
  obtain ⟨t, ht, hread⟩ := canonical?_of_tree? policy he dst
  exact ⟨t, _, e, _, he, ht, hread, Expr.permuted_canonical policy e⟩

theorem canonical?_permuted_sample : sample.WellFormed ∧ sample.Holds (some 3) ∧
    ∃ (t : Store × Ref) (changed : Bool) (e e' : Expr), sample.tree? (some 3) = some e ∧
      sample.canonical? .standard (some 3) sample = some (t, changed) ∧ t.1.tree? t.2 = some e' ∧
      e.Permuted e' :=
  ⟨by decide, by decide, canonical?_permuted .standard (by decide) (by decide) sample⟩

/-- **A call behind operands of its own size.** The three operands weigh the same and are as long
as each other, and none is larger than another. The call steps back past both of the others all
the same. -/
theorem call_behind_equals :
    let parsed := ofParsed (parse "f() * -ab * -cd").expr
    (parse "f() * -ab * -cd").expr.operands.map (fun x => (x.weight, x.span.length)) =
      [(2, 3), (2, 3), (2, 3)] ∧
    (∀ x ∈ (parse "f() * -ab * -cd").expr.operands, ∀ y ∈ (parse "f() * -ab * -cd").expr.operands,
      x.profile.isLarger y.profile = false) ∧
    parsed.1.print? parsed.2 = some "f() * -ab * -cd" ∧
    ((parsed.1.canonical? .standard parsed.2 empty).bind fun out => out.1.1.print? out.1.2) =
      some "-ab * -cd * f()" := by
  decide +kernel

end Store

end OperandOrder
