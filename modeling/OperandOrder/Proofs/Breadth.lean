import OperandOrder.Proofs.Canonical
import OperandOrder.Proofs.Token.Layout

/-!
# Breadth and loose nodes

Two numbers of a tree that printing depends on. `Expr.breadth` is the width of the output without
the parentheses that are put in on printing. `Expr.loose` is the number of nodes that parentheses
could be put around, because they stand in none.

Neither depends on the places of the nodes (`Expr.breadth_bare`, `Expr.loose_bare`), and canonical
form keeps both (`Expr.breadth_canonical`, `Expr.loose_canonical`): it moves operands, and it turns
operators into their converses, which are as wide.
-/

namespace OperandOrder

/-- What an operator takes up between two operands. -/
def BinaryOp.gap (op : BinaryOp) : Nat := Fragment.width [.space, .text op.symbol, .space]

@[simp] theorem BinaryOp.gap_converse (op : BinaryOp) : op.converse.gap = op.gap := by
  -- the converse of a comparison is spelled with as many characters
  have hsymbol : Text.width op.converse.symbol.toList = Text.width op.symbol.toList := by
    cases op <;> decide
  simp only [gap, Fragment.width_cons _ [_, _], Fragment.width_cons _ [_], Fragment.width_text,
    hsymbol]

/-- Whether a child of this form is ever put in parentheses. -/
def Form.isLoose : Form → Bool
  | .unary _ | .infixed _ | .conditional => true
  | _ => false

theorem Form.isLoose_of_wraps {position : Position} {form : Form} (h : position.wraps form = true) :
    form.isLoose = true := by
  unfold Position.wraps at h
  split at h <;> first | rfl | exact nomatch h

@[simp] theorem Form.isLoose_outline (form : Form) : form.outline.isLoose = form.isLoose := by
  cases form <;> rfl

namespace Expr

mutual

/-- **The breadth of a tree:** the width of its output without the parentheses that are put in. -/
def breadth : Expr → Nat
  | .absent => 0
  | .error _ => Fragment.width [.text "/* error */"]
  | .literal _ _ text => Fragment.width [.text text]
  | .ident _ name => Fragment.width [.text name]
  | .call _ receiver name args =>
    (if receiver.form = .absent then 0 else receiver.breadth + 1) +
      (Fragment.width [.text name] + (breadths args + (args.length - 1) * 2 + 2))
  | .field _ receiver name => receiver.breadth + (1 + Fragment.width [.text name])
  | .unary _ op operand =>
    Fragment.width [.text op.symbol] + (Fragment.width (signGap op operand.form) + operand.breadth)
  | .paren _ inner => inner.breadth + 2
  | .binary _ op left right => left.breadth + right.breadth + op.gap
  | .chain _ op operands => breadths operands + (operands.length - 1) * op.gap
  | .conditional _ cond yes no => cond.breadth + yes.breadth + no.breadth + 6

/-- The breadths of several trees together. -/
def breadths : List Expr → Nat
  | [] => 0
  | e :: es => e.breadth + breadths es

end

mutual

/-- **Number of the nodes below the root that parentheses could be put around.** -/
def loose : Expr → Nat
  | .absent | .error _ | .literal .. | .ident .. => 0
  | .call _ receiver _ args => receiver.loose + receiver.form.isLoose.toNat + looseAll args
  | .field _ receiver _ => receiver.loose + receiver.form.isLoose.toNat
  | .unary _ _ operand => operand.loose + operand.form.isLoose.toNat
  -- what stands in parentheses is not given any more
  | .paren _ inner => inner.loose
  | .binary _ _ left right =>
    left.loose + left.form.isLoose.toNat + (right.loose + right.form.isLoose.toNat)
  | .chain _ _ operands => looseAll operands
  | .conditional _ cond yes no =>
    cond.loose + cond.form.isLoose.toNat + (yes.loose + yes.form.isLoose.toNat) +
      (no.loose + no.form.isLoose.toNat)

/-- The same for several trees, the trees themselves included. -/
def looseAll : List Expr → Nat
  | [] => 0
  | e :: es => e.loose + e.form.isLoose.toNat + looseAll es

end

/-- The loose nodes of a child, itself included. -/
def exposed (e : Expr) : Nat := e.loose + e.form.isLoose.toNat

/-- **The width of a tree with parentheses wherever they could be put.** -/
def reach (e : Expr) : Nat := e.breadth + 2 * e.loose

theorem totals_breadths : Totals breadths breadth := fun e es => by rw [breadths]

theorem totals_looseAll : Totals looseAll exposed := fun e es => by rw [looseAll, exposed]

/-- An infix node is as broad as its operands and the gaps between them. -/
theorem breadth_join (s : Span) (op : BinaryOp) (es : List Expr) :
    (join s op es).breadth = breadths es + (es.length - 1) * op.gap := by
  unfold join
  split
  · simp [breadth, breadths]
  · rw [breadth]

theorem loose_join (s : Span) (op : BinaryOp) (es : List Expr) :
    (join s op es).loose = looseAll es := by
  unfold join
  split
  · simp [loose, looseAll]
  · rw [loose]

theorem exposed_congr {e e' : Expr} (hloose : e.loose = e'.loose)
    (hform : e.form.outline = e'.form.outline) : e.exposed = e'.exposed := by
  rw [exposed, exposed, hloose, ← Form.isLoose_outline e.form, hform, Form.isLoose_outline]

/-! ### Canonical form -/

section Canonical

variable (policy : Policy)

/-- A total stays when operands are put in canonical form and arranged. -/
theorem Totals.arrangement {total : List Expr → Nat} {f : Expr → Nat} (h : Totals total f)
    (op : BinaryOp) {es : List Expr} (hsame : ∀ e ∈ es, f (e.canonical policy).expr = f e) :
    total ((arrangement policy op es).operands.map (·.item.expr)) = total es := by
  have hmap : (es.map fun e => f (e.canonical policy).expr) = es.map f := List.map_congr_left hsame
  have hmoved := (arrangement_perm policy op es).map fun x => f x.item.expr
  refine h.perm ?_
  rw [List.map_map, ← hmap]
  rwa [List.map_map] at hmoved

/-- A total stays when trees are put in canonical form where they are. -/
theorem Totals.canonical {total : List Expr → Nat} {f : Expr → Nat} (h : Totals total f)
    {es : List Expr} (hsame : ∀ e ∈ es, f (e.canonical policy).expr = f e) :
    total ((es.map (canonical policy)).map (·.expr)) = total es := by
  rw [List.map_map]
  exact h.map hsame

/-- Canonical form keeps the breadth of a node, if it keeps that of its operands. -/
theorem breadth_canonical_join (s : Span) (op : BinaryOp) {es : List Expr}
    (h : ∀ e ∈ es, (e.canonical policy).expr.breadth = e.breadth) :
    ((join s op es).canonical policy).expr.breadth = (join s op es).breadth := by
  have hgap : (arrangement policy op es).op.gap = op.gap := by
    rcases op_arrange policy op (es.map (judged policy)) with hop | hop
    · rw [arrangement, hop]
    · rw [arrangement, hop, BinaryOp.gap_converse]
  have hlength : ((arrangement policy op es).operands.map (·.item.expr)).length = es.length := by
    rw [List.length_map, (arrangement_perm policy op es).length_eq, List.length_map]
  rw [canonical_join, breadth_join, breadth_join, totals_breadths.arrangement policy op h,
    hlength, hgap]

/-- A form that is not that of an infix node is kept. -/
theorem form_canonical_eq_iff (e : Expr) {f : Form} (hf : ∀ op, f ≠ .infixed op) :
    (e.canonical policy).expr.form = f ↔ e.form = f := by
  have hform := (keeps_canonical policy e).form
  have houtline : ∀ g : Form, g = f ↔ g.outline = f := by
    intro g
    cases g with
    | infixed op => exact iff_of_false (hf op).symm (hf .add).symm
    | _ => exact Iff.rfl
  rw [houtline, hform, ← houtline]

/-- **Canonical form keeps the breadth** of every tree. -/
theorem breadth_canonical (e : Expr) : (e.canonical policy).expr.breadth = e.breadth := by
  induction e using induct with
  | absent => rfl
  | error s => rfl
  | literal s kind text => rfl
  | ident s name => rfl
  | call s receiver name args hreceiver hargs =>
    have habsent := form_canonical_eq_iff policy receiver (f := .absent) (by simp)
    rw [canonical, canonicalAll_eq_map, breadth, breadth, totals_breadths.canonical policy hargs,
      hreceiver]
    simp only [habsent, List.length_map]
  | field s receiver name hreceiver => rw [canonical, breadth, breadth, hreceiver]
  | unary s op operand hoperand =>
    -- no sign gets next to another one, or away from it
    have hgap : signGap op (operand.canonical policy).expr.form = signGap op operand.form := by
      have hsign := form_canonical_eq_iff policy operand (f := .unary op) (by simp)
      simp only [signGap, Bool.and_eq_true, beq_iff_eq, hsign]
    rw [canonical, breadth, breadth, hoperand, hgap]
  | paren s inner hinner => rw [canonical, breadth, breadth, hinner]
  | binary s op left right hleft hright =>
    exact breadth_canonical_join policy s op (forall_mem_pair hleft hright)
  | chain s op operands hoperands =>
    rw [canonical_chain, breadth_canonical_join policy s op hoperands, breadth_join, breadth]
  | conditional s cond yes no hcond hyes hno =>
    rw [canonical, breadth, breadth, hcond, hyes, hno]

theorem exposed_canonical {e : Expr} (h : (e.canonical policy).expr.loose = e.loose) :
    (e.canonical policy).expr.exposed = e.exposed :=
  exposed_congr h (keeps_canonical policy e).form

/-- Canonical form keeps the loose nodes of a node, if it keeps those of its operands. -/
theorem loose_canonical_join (s : Span) (op : BinaryOp) {es : List Expr}
    (h : ∀ e ∈ es, (e.canonical policy).expr.loose = e.loose) :
    ((join s op es).canonical policy).expr.loose = (join s op es).loose := by
  have hexposed : ∀ e ∈ es, (e.canonical policy).expr.exposed = e.exposed :=
    fun e he => exposed_canonical policy (h e he)
  rw [canonical_join, loose_join, loose_join, totals_looseAll.arrangement policy op hexposed]

/-- **Canonical form keeps the number of loose nodes.** -/
theorem loose_canonical (e : Expr) : (e.canonical policy).expr.loose = e.loose := by
  -- A child keeps its form, so it is as exposed as it was; operands are counted in any order.
  induction e using induct with
  | absent => rfl
  | error s => rfl
  | literal s kind text => rfl
  | ident s name => rfl
  | call s receiver name args hreceiver hargs =>
    have hr := exposed_canonical policy hreceiver
    have has := totals_looseAll.canonical policy fun e he => exposed_canonical policy (hargs e he)
    rw [exposed, exposed] at hr
    rw [canonical, canonicalAll_eq_map, loose, loose, hr, has]
  | field s receiver name hreceiver => exact exposed_canonical policy hreceiver
  | unary s op operand hoperand => exact exposed_canonical policy hoperand
  | paren s inner hinner => exact hinner
  | binary s op left right hleft hright =>
    exact loose_canonical_join policy s op (forall_mem_pair hleft hright)
  | chain s op operands hoperands =>
    rw [canonical_chain, loose_canonical_join policy s op hoperands, loose_join, loose]
  | conditional s cond yes no hcond hyes hno =>
    have hc := exposed_canonical policy hcond
    have hy := exposed_canonical policy hyes
    have hn := exposed_canonical policy hno
    rw [exposed, exposed] at hc hy hn
    rw [canonical, loose, loose, hc, hy, hn]

theorem reach_canonical (e : Expr) : (e.canonical policy).expr.reach = e.reach := by
  rw [reach, reach, breadth_canonical, loose_canonical]

end Canonical

/-! ### Places -/

/-- Breadth has nothing to do with places. -/
theorem breadth_bare (e : Expr) : e.bare.breadth = e.breadth := by
  induction e using induct with
  | call s receiver name args hreceiver hargs =>
    rw [bare, bareAll_eq_map, breadth, breadth, form_bare, hreceiver, totals_breadths.map hargs,
      List.length_map]
  | field s receiver name hreceiver => rw [bare, breadth, breadth, hreceiver]
  | unary s op operand hoperand => rw [bare, breadth, breadth, form_bare, hoperand]
  | paren s inner hinner => rw [bare, breadth, breadth, hinner]
  | binary s op left right hleft hright => rw [bare, breadth, breadth, hleft, hright]
  | chain s op operands hoperands =>
    rw [bare, bareAll_eq_map, breadth, breadth, totals_breadths.map hoperands, List.length_map]
  | conditional s cond yes no hcond hyes hno => rw [bare, breadth, breadth, hcond, hyes, hno]
  | _ => rfl

/-- Looseness has nothing to do with places. -/
theorem loose_bare (e : Expr) : e.bare.loose = e.loose := by
  have hexposed : ∀ x : Expr, x.bare.loose = x.loose → x.bare.exposed = x.exposed :=
    fun x hx => exposed_congr hx (by rw [form_bare])
  induction e using induct with
  | call s receiver name args hreceiver hargs =>
    have has := totals_looseAll.map fun e he => hexposed e (hargs e he)
    rw [bare, bareAll_eq_map, loose, loose, form_bare, hreceiver, has]
  | field s receiver name hreceiver => rw [bare, loose, loose, form_bare, hreceiver]
  | unary s op operand hoperand => rw [bare, loose, loose, form_bare, hoperand]
  | paren s inner hinner => rw [bare, loose, loose, hinner]
  | binary s op left right hleft hright =>
    rw [bare, loose, loose, form_bare, form_bare, hleft, hright]
  | chain s op operands hoperands =>
    have hes := totals_looseAll.map fun e he => hexposed e (hoperands e he)
    rw [bare, bareAll_eq_map, loose, loose, hes]
  | conditional s cond yes no hcond hyes hno =>
    rw [bare, loose, loose, form_bare, form_bare, form_bare, hcond, hyes, hno]
  | _ => rfl

end Expr

end OperandOrder
