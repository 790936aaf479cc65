import OperandOrder.Parser
import OperandOrder.Printer
import OperandOrder.Proofs.Nodes
import OperandOrder.Proofs.Store.Laying
import OperandOrder.Proofs.Store.Reordering

/-!
# What canonical form looks like

`Expr.Ordered` describes operands in order without mention of the steps that put them there: the
first two are not a pair that ought to be the other way round, calls come last in every stretch
without exempt operands, and no movable operand is larger than a movable neighbour behind it. Every
infix node of a tree in canonical form has its operands so ordered, if its operator is flippable and
none of them is missing (`Store.canonical?_ordered`).

Nothing is followed through the steps here. A tree in canonical form is not changed by a second run,
so at none of its nodes does any operand move, and where no operand moves, none of the steps has
found anything to do (`Arrangement.InOrder`). Of the two orders of neighbours that this speaks of,
the one of calls is transitive as long as no exempt operand is in the way, so it holds between any
two operands of a stretch. The order by size is not, and it stays a statement about neighbours.
-/

namespace OperandOrder

/-- Where no call stands right before an operand that it could step back past, none stands anywhere
before one. -/
theorem pairwise_calls_of_settled {α : Type} {policy : Policy} {op : BinaryOp} (look : α → Profile)
    {run : List α} (hsettled : Settled (fun x y => policy.sinksBack op (look x) (look y)) run)
    (hfree : ∀ x ∈ run, policy.exempts op (look x).form = false) :
    run.Pairwise fun x y => (look x).form.isCall = true → (look y).form.isCall = true := by
  let last : α → α → Prop := fun x y => (look x).form.isCall = true → (look y).form.isCall = true
  have : Trans last last last := ⟨fun h h' => h' ∘ h⟩
  -- no operand of the stretch is exempt, so a call that stays in place stands before a call
  have hneighbours : run.IsChain last := by
    refine hsettled.imp_of_mem_imp fun x y hx hy hstays hcall => ?_
    simpa [Policy.sinksBack, hcall, hfree x hx, hfree y hy] using hstays
  exact hneighbours.pairwise

namespace Expr

/-- **A call may only stand before a call.** -/
def CallsLast (x y : Expr) : Prop := x.form.isCall = true → y.form.isCall = true

variable {policy : Policy} {op : BinaryOp}

/-- **Operands in order.** What is said of calls and of sizes is said of three operands or more. -/
structure Ordered (policy : Policy) (op : BinaryOp) (es : List Expr) : Prop where
  /-- If the first operand is larger than the second, the two are exempt as a pair. -/
  front : ∀ x y rest, es = x :: y :: rest → x.profile.isLarger y.profile = true →
    policy.exemptsPair op x.form y.form = true
  /-- In a stretch without exempt operands, only calls stand behind a call. -/
  calls : 2 < es.length → ∀ run, run <:+: es → (∀ x ∈ run, policy.exempts op x.form = false) →
    run.Pairwise CallsLast
  /-- A movable operand is not larger than a movable one right behind it. -/
  sizes : 2 < es.length → es.IsChain fun x y =>
    policy.movable op x.profile = true → policy.movable op y.profile = true →
      x.profile.isLarger y.profile = false

/-- What the steps leave alone is ordered. -/
theorem ordered_of_inOrder {es : List Expr}
    (h : Arrangement.InOrder policy op (es.map fun x => (⟨x.profile, ()⟩ : Operand Unit))) :
    Ordered policy op es where
  front x y rest hes hlarger := by
    subst hes
    have hstays := h.front _ _ _ rfl
    rw [Policy.swapsFront, hlarger, Bool.true_and, Bool.not_eq_false'] at hstays
    exact hstays
  calls hlength run hrun hfree := by
    have hsettled := h.calls (by rwa [List.length_map])
    rw [Settled, List.isChain_map] at hsettled
    have hstretch := List.IsChain.infix hsettled hrun
    exact pairwise_calls_of_settled profile hstretch hfree
  sizes hlength := by
    have hsettled := h.sizes (by rwa [List.length_map])
    rw [Settled, List.isChain_map] at hsettled
    refine hsettled.imp fun x y hstays hx hy => ?_
    simpa [Policy.outgrows, hx, hy] using hstays

/-- A node whose operands do not move has them in order. -/
theorem ordered_of_unmoved {x : Expr} (hop : x.infixed? = some op)
    (hflippable : op.isFlippable = true) (hpresent : ∀ y ∈ x.operands, y.isMissing = false)
    (hunmoved : x.moves policy = false) :
    Ordered policy op x.operands := by
  set xs := x.operands.map fun y => (⟨y.profile, ()⟩ : Operand Unit) with hxs
  have hmovable : isFixed op xs = false :=
    (isFixed_eq_false_iff op).mpr ⟨hflippable, List.forall_mem_map.mpr hpresent⟩
  rw [moves, hop] at hunmoved
  -- what `arrange` leaves is in order, and here it leaves the operands where they are
  have hinOrder := inOrder_arrange policy op hmovable
  rw [arrange_of_unmoved policy op hunmoved] at hinOrder
  exact ordered_of_inOrder hinOrder

/-- **No operand of a tree in canonical form moves any more.** -/
theorem unmoved_of_canonical (policy : Policy) (e : Expr) {x : Expr}
    (hx : (e.canonical policy).expr.HasNode x) : x.moves policy = false := by
  by_contra hmoves
  have hchanged : ((e.canonical policy).expr.canonical policy).changed = true :=
    (changed_iff policy _).mpr ⟨x, hx, by simpa using hmoves⟩
  rw [canonical_canonical] at hchanged
  exact Bool.false_ne_true hchanged

end Expr

namespace Store

/-- **Canonical form is ordered.** A tree in a well-formed store has a canonical form, the one of
the tree that is read there, and every infix node of it that has a flippable operator and all its
operands has them in order. -/
theorem canonical?_ordered (policy : Policy) {src : Store} {r : Ref} (hsrc : src.WellFormed)
    (hr : src.Holds r) (dst : Store) :
    ∃ (given : Expr) (t : Store × Ref) (changed : Bool) (e : Expr), src.tree? r = some given ∧
      src.canonical? policy r dst = some (t, changed) ∧ t.1.tree? t.2 = some e ∧
      e = (given.canonical policy).expr ∧
      ∀ x op, e.HasNode x → x.infixed? = some op → op.isFlippable = true →
        (∀ y ∈ x.operands, y.isMissing = false) → Expr.Ordered policy op x.operands := by
  obtain ⟨given, hgiven⟩ := exists_tree? hsrc hr
  obtain ⟨t, ht, hread⟩ := canonical?_of_tree? policy hgiven dst
  refine ⟨given, t, _, _, hgiven, ht, hread, rfl, fun x op hx hop hflippable hpresent => ?_⟩
  exact Expr.ordered_of_unmoved hop hflippable hpresent (Expr.unmoved_of_canonical policy given hx)

/-- `ccc + f() + "s" + g() + bb + a` comes out as `ccc + f() + "s" + a + bb + g()`: six operands in
order, with an exempt one between two stretches. -/
theorem canonical?_ordered_sample :
    let parsed := ofParsed (parse "ccc + f() + \"s\" + g() + bb + a").expr
    parsed.1.WellFormed ∧ parsed.1.Holds parsed.2 ∧
    ∃ (t : Store × Ref) (changed : Bool) (e : Expr),
      parsed.1.canonical? .standard parsed.2 empty = some (t, changed) ∧ t.1.tree? t.2 = some e ∧
      e.print = "ccc + f() + \"s\" + a + bb + g()" ∧ e.operands.length = 6 ∧
      Expr.Ordered .standard .add e.operands := by
  intro parsed
  have hwell : parsed.1.WellFormed := by decide +kernel
  have hholds : parsed.1.Holds parsed.2 := by decide +kernel
  obtain ⟨given, t, changed, e, hgiven, ht, hread, he, hordered⟩ :=
    canonical?_ordered .standard hwell hholds empty
  -- the tree that is read in the store is the one that was laid out there
  obtain rfl := Option.some.inj ((tree?_ofParsed _).symm.trans hgiven)
  subst he
  exact ⟨hwell, hholds, t, changed, _, ht, hread, by decide +kernel, by decide +kernel,
    hordered _ .add (.self _) (by decide +kernel) rfl (by decide +kernel)⟩

end Store

end OperandOrder
