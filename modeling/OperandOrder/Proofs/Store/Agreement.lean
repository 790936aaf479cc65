import OperandOrder.Proofs.Opportunities
import OperandOrder.Proofs.Store.Reordering

/-!
# What is reported of stored trees

`Store.changed_exact`: whatever is done to a stored tree, the flag that comes with the result says
whether the result is the same tree. `Store.walks_agree`: reordering everywhere, canonical form and
the search for opportunities agree on a stored tree. Both are the statements on trees, read through
`Store.tree?`; a tree in a well-formed store may have missing operands anywhere.
-/

namespace OperandOrder

namespace Store

variable (policy : Policy) {src : Store} {r : Ref}

/-- An exact flag says whether the tree that was placed is the one that was given. -/
theorem sameTree?_of_exact {e : Expr} {outcome : Outcome} {t : Store × Ref}
    (he : src.tree? r = some e) (hread : t.1.tree? t.2 = some outcome.expr)
    (hexact : outcome.changed = false ↔ outcome.expr = e) :
    src.sameTree? r t.1 t.2 = some (!outcome.changed) := by
  have hflag : decide (e = outcome.expr) = !outcome.changed := by
    have hiff : e = outcome.expr ↔ outcome.changed = false := eq_comm.trans hexact.symm
    calc decide (e = outcome.expr) = decide (outcome.changed = false) := decide_eq_decide.mpr hiff
      _ = !outcome.changed := Bool.decide_eq_false
  rw [sameTree?_eq he hread, hflag]

/-- **The flag is exact.** Within any range, and for canonical form, a tree without a chain of two
operands is the same as its result if and only if no change is reported. -/
theorem changed_exact (hsrc : src.WellFormed) (hr : src.Holds r)
    (hfree : ∀ e, src.tree? r = some e → e.PairFree) :
    (∀ range, ∃ t changed, src.reorderWithin? policy range r = some (t, changed) ∧
      src.sameTree? r t.1 t.2 = some (!changed)) ∧
    ∀ dst, ∃ t changed, src.canonical? policy r dst = some (t, changed) ∧
      src.sameTree? r t.1 t.2 = some (!changed) := by
  obtain ⟨e, he⟩ := exists_tree? hsrc hr
  refine ⟨fun range => ?_, fun dst => ?_⟩
  · obtain ⟨t, ht, hread⟩ := reorderWithin?_of_tree? policy he range
    have hexact := Expr.reorderWithin_changed_iff policy range e (hfree e he)
    exact ⟨t, _, ht, sameTree?_of_exact he hread hexact⟩
  · obtain ⟨t, ht, hread⟩ := canonical?_of_tree? policy he dst
    have hexact := Expr.canonical_changed_iff policy e (hfree e he)
    exact ⟨t, _, ht, sameTree?_of_exact he hread hexact⟩

/-- The product of `f(x) + 1` and an operand that was not found. -/
def incomplete : Store := ⟨sample.nodes.push ⟨⟨0, 9⟩, .binary .mul (some 3) (some 4)⟩⟩

theorem tree?_incomplete : incomplete.tree? (some 5) = some (.binary ⟨0, 9⟩ .mul
    (.binary ⟨0, 8⟩ .add (.call ⟨0, 4⟩ .absent "f" [.ident ⟨2, 3⟩ "x"])
      (.literal ⟨7, 8⟩ .number "1"))
    (.error ⟨9, 9⟩)) := rfl

theorem pairFree_incomplete (e : Expr) (he : incomplete.tree? (some 5) = some e) : e.PairFree := by
  obtain rfl := Option.some.inj (tree?_incomplete.symm.trans he)
  simp [Expr.PairFree, Expr.Every, Expr.EveryOf]

/-- The product stays, for want of an operand, and the sum in it does not. -/
theorem changed_exact_incomplete : incomplete.WellFormed ∧ incomplete.Holds (some 5) ∧
    (∀ e, incomplete.tree? (some 5) = some e → e.PairFree) ∧
    (∀ range, ∃ t changed, incomplete.reorderWithin? .standard range (some 5) = some (t, changed) ∧
      incomplete.sameTree? (some 5) t.1 t.2 = some (!changed)) ∧
    ∀ dst, ∃ t changed, incomplete.canonical? .standard (some 5) dst = some (t, changed) ∧
      incomplete.sameTree? (some 5) t.1 t.2 = some (!changed) :=
  ⟨by decide, by decide, pairFree_incomplete,
    changed_exact .standard (by decide) (by decide) pairFree_incomplete⟩

/-- **The three walks agree.** Reordering everywhere gives the same tree as canonical form and
reports the same; nothing is shown of the tree if and only if no change is reported; and nothing is
shown of the result. -/
theorem walks_agree (hsrc : src.WellFormed) (hr : src.Holds r)
    (hfree : ∀ e, src.tree? r = some e → e.PairFree)
    (hspan : ∀ e, src.tree? r = some e → e.InBounds) (dst : Store) :
    ∃ (t t' : Store × Ref) (changed : Bool) (found : RangeSet),
      src.reorderWithin? policy .everywhere r = some (t, changed) ∧
      src.canonical? policy r dst = some (t', changed) ∧
      t.1.sameTree? t.2 t'.1 t'.2 = some true ∧
      src.opportunities? policy r = some found ∧ (found = .empty ↔ changed = false) ∧
      t.1.opportunities? policy t.2 = some .empty := by
  obtain ⟨e, he⟩ := exists_tree? hsrc hr
  obtain ⟨t, ht, hread⟩ := reorderWithin?_of_tree? policy he .everywhere
  obtain ⟨t', ht', hread'⟩ := canonical?_of_tree? policy he dst
  -- within a range that holds everything, reordering is putting in canonical form
  rw [Expr.reorderWithin_everywhere policy e (hfree e he) (hspan e he)] at ht hread
  refine ⟨t, t', _, e.opportunities policy, ht, ht', ?_, ?_, ?_, ?_⟩
  · rw [sameTree?_eq hread hread']
    simp
  · rw [opportunities?, he, Option.map_some]
  · exact Expr.opportunities_eq_empty_iff policy e
  · -- what was put in canonical form is a fixed point, so there is nothing left to show
    have hsettled : ((e.canonical policy).expr).opportunities policy = .empty := by
      rw [Expr.opportunities_eq_empty_iff, Expr.canonical_canonical]
    rw [opportunities?, hread, Option.map_some, hsettled]

theorem inBounds_incomplete (e : Expr) (he : incomplete.tree? (some 5) = some e) : e.InBounds := by
  obtain rfl := Option.some.inj (tree?_incomplete.symm.trans he)
  simp [Expr.InBounds, Expr.Every, Expr.EveryOf, Expr.span, Span.limit, Span.nowhere]

/-- The walks meet in the sum below the product that is incomplete. -/
theorem walks_agree_incomplete : incomplete.WellFormed ∧ incomplete.Holds (some 5) ∧
    (∀ e, incomplete.tree? (some 5) = some e → e.PairFree) ∧
    (∀ e, incomplete.tree? (some 5) = some e → e.InBounds) ∧
    ∃ (t t' : Store × Ref) (changed : Bool) (found : RangeSet),
      incomplete.reorderWithin? .standard .everywhere (some 5) = some (t, changed) ∧
      incomplete.canonical? .standard (some 5) sample = some (t', changed) ∧
      t.1.sameTree? t.2 t'.1 t'.2 = some true ∧
      incomplete.opportunities? .standard (some 5) = some found ∧
      (found = .empty ↔ changed = false) ∧
      t.1.opportunities? .standard t.2 = some .empty :=
  ⟨by decide, by decide, pairFree_incomplete, inBounds_incomplete,
    walks_agree .standard (by decide) (by decide) pairFree_incomplete inBounds_incomplete sample⟩

end Store

end OperandOrder
