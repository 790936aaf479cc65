import OperandOrder.Proofs.Meaning
import OperandOrder.Proofs.Store.Placing

/-!
# Reordering stored trees

What `Store.canonical?` and `Store.reorderWithin?` do to a tree in a store follows from two facts:
they have an answer wherever the store is well-formed, and what they place denotes the tree that the
functions on trees give. So canonical form is a fixed point for stored trees as well
(`Store.canonical?_fixed`), and reordering keeps their meaning (`Store.eval?_reordered`).
-/

namespace OperandOrder

namespace Store

variable (policy : Policy) {src : Store} {r : Ref}

/-- **The canonical form of a stored tree,** as it is read where it was placed. -/
theorem canonical?_of_tree? {e : Expr} (he : src.tree? r = some e) (dst : Store) :
    ∃ t : Store × Ref, src.canonical? policy r dst = some (t, (e.canonical policy).changed) ∧
      t.1.tree? t.2 = some (e.canonical policy).expr :=
  ⟨place (.canonical policy) e dst, by rw [canonical?, he]; rfl, tree?_place _ e dst⟩

/-- **A stored tree reordered within a range,** as it is read where it was placed. -/
theorem reorderWithin?_of_tree? {e : Expr} (he : src.tree? r = some e) (range : Span) :
    ∃ t : Store × Ref,
      src.reorderWithin? policy range r = some (t, (e.reorderWithin policy range).changed) ∧
        t.1.tree? t.2 = some (e.reorderWithin policy range).expr :=
  ⟨place (.within policy range) e empty, by rw [reorderWithin?, he]; rfl, tree?_place _ e empty⟩

/-- **Canonical form is a fixed point.** Whatever stores the results are placed in, the second run
reports no change, and its tree is the same as the tree it was given. -/
theorem canonical?_fixed (hsrc : src.WellFormed) (hr : src.Holds r) (dst dst' : Store) :
    ∃ (t t' : Store × Ref) (changed : Bool),
      src.canonical? policy r dst = some (t, changed) ∧
        t.1.canonical? policy t.2 dst' = some (t', false) ∧
          t.1.sameTree? t.2 t'.1 t'.2 = some true := by
  obtain ⟨e, he⟩ := exists_tree? hsrc hr
  obtain ⟨t, ht, hread⟩ := canonical?_of_tree? policy he dst
  obtain ⟨t', ht', hread'⟩ := canonical?_of_tree? policy hread dst'
  rw [Expr.canonical_canonical] at ht' hread'
  refine ⟨t, t', _, ht, ht', ?_⟩
  rw [sameTree?_eq hread hread']
  simp

/-- `f(x) + 1`, in a store that holds one more node. -/
def sample : Store :=
  ⟨#[⟨⟨2, 3⟩, .ident "x"⟩, ⟨⟨0, 4⟩, .call none "f" [some 0]⟩, ⟨⟨7, 8⟩, .literal .number "1"⟩,
    ⟨⟨0, 8⟩, .binary .add (some 1) (some 2)⟩, ⟨⟨9, 9⟩, .error⟩]⟩

/-- The sum above is reordered once, and not again. -/
theorem canonical?_fixed_sample : sample.WellFormed ∧ sample.Holds (some 3) ∧
    ∃ (t t' : Store × Ref) (changed : Bool),
      sample.canonical? .standard (some 3) sample = some (t, changed) ∧
        t.1.canonical? .standard t.2 empty = some (t', false) ∧
          t.1.sameTree? t.2 t'.1 t'.2 = some true :=
  ⟨by decide, by decide, canonical?_fixed .standard (by decide) (by decide) sample empty⟩

universe u

/-- **The meaning of a stored tree.** -/
def eval? {V : Type u} (I : Interpretation V) (s : Store) (r : Ref) : Option V :=
  (s.tree? r).map I.eval

/-- **Reordering keeps the meaning.** A tree in a well-formed store has a value, and so has what
becomes of it in canonical form or reordered within any range, and the values are the same. -/
theorem eval?_reordered {V : Type u} {I : Interpretation V} (hI : I.Lawful) (hsrc : src.WellFormed)
    (hr : src.Holds r) (htame : ∀ e, src.tree? r = some e → e.Tame) :
    ∃ v, src.eval? I r = some v ∧
      (∀ dst, ∃ t changed, src.canonical? policy r dst = some (t, changed) ∧
        t.1.eval? I t.2 = some v) ∧
      ∀ range, ∃ t changed, src.reorderWithin? policy range r = some (t, changed) ∧
        t.1.eval? I t.2 = some v := by
  obtain ⟨e, he⟩ := exists_tree? hsrc hr
  have hvalue : src.eval? I r = some (I.eval e) := by rw [eval?, he, Option.map_some]
  refine ⟨I.eval e, hvalue, fun dst => ?_, fun range => ?_⟩
  · obtain ⟨t, ht, hread⟩ := canonical?_of_tree? policy he dst
    refine ⟨t, _, ht, ?_⟩
    rw [eval?, hread, Option.map_some, hI.eval_canonical policy e (htame e he)]
  · obtain ⟨t, ht, hread⟩ := reorderWithin?_of_tree? policy he range
    refine ⟨t, _, ht, ?_⟩
    rw [eval?, hread, Option.map_some, hI.eval_reorderWithin policy range e (htame e he)]

theorem tame_sample (e : Expr) (he : sample.tree? (some 3) = some e) : e.Tame := by
  obtain rfl : Expr.binary ⟨0, 8⟩ .add (.call ⟨0, 4⟩ .absent "f" [.ident ⟨2, 3⟩ "x"])
      (.literal ⟨7, 8⟩ .number "1") = e := Option.some.inj he
  simp [Expr.Tame, Expr.Every, Expr.EveryOf]

/-- The sum above keeps its value in natural numbers. -/
theorem eval?_reordered_sample : Interpretation.naturals.Lawful ∧ sample.WellFormed ∧
    sample.Holds (some 3) ∧ (∀ e, sample.tree? (some 3) = some e → e.Tame) ∧
    ∃ v, sample.eval? .naturals (some 3) = some v ∧
      (∀ dst, ∃ t changed, sample.canonical? .standard (some 3) dst = some (t, changed) ∧
        t.1.eval? .naturals t.2 = some v) ∧
      ∀ range, ∃ t changed, sample.reorderWithin? .standard range (some 3) = some (t, changed) ∧
        t.1.eval? .naturals t.2 = some v :=
  ⟨Interpretation.lawful_naturals, by decide, by decide, tame_sample,
    eval?_reordered .standard Interpretation.lawful_naturals (by decide) (by decide) tame_sample⟩

end Store

end OperandOrder
