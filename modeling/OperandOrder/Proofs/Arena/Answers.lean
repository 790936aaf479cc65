import OperandOrder.Proofs.Arena.Reordering

/-!
# What is asked of a well-formed arena

In a well-formed arena every reference denotes a tree, children may be absent anywhere, and a chain
may have any number of operands. Still nothing is looked up in vain: every operation has an answer,
and it is the right one (`Arena.operations_answer`). In particular the sorting of operands is never
asked for the places of a list that is too short, nor for the form of an operand that is absent.

What is written to an arena is added at its end (`Arena.writing_appends`). What was there denotes
what it did before, and what is added does not depend on it.
-/

namespace OperandOrder

/-- **Growth keeps what a reference denotes.** -/
theorem Store.Extends.treeWithin {s s' : Store} (h : s.Extends s') {n : Nat} {r : Ref} {e : Expr}
    (he : s.treeWithin n r = some e) : s'.treeWithin n r = some e := by
  induction n, r, e, he using reading_induct with
  | absent n => exact s'.treeWithin_none n
  | node n i node es e hnode hes hbuilds ih =>
    exact treeWithin_succ_eq_some_iff.mpr ⟨node, es, h i node hnode,
      mapM_eq_some_mono (fun r _ e he => ih r e he) hes, hbuilds⟩

namespace Arena

/-! ### What is written -/

/-- **What was written to an arena** is added at its end, and the arena is as good as it was. -/
structure Appends (dst : Arena) (given result : Expr) (w : Written) : Prop where
  wellFormed : w.arena.WellFormed
  grown : dst.Extends w.arena
  /-- What was there denotes what it did before. -/
  kept : ∀ r, dst.Holds r → w.arena.tree? r = dst.tree? r
  holds : w.arena.Holds w.ref
  reads : w.arena.tree? w.ref = some result
  /-- One cell for each node of the tree that was read, however it shares them. -/
  size : w.arena.size = dst.size + given.size
  lists : w.arena.lists.size = dst.lists.size + result.listed

/-- What lands has been appended. -/
theorem Lands.appends {t : Treatment} {e : Expr} {dst : Arena} {w : Written} (h : Lands t e dst w)
    (hdst : dst.WellFormed) : Appends dst e (t.result e) w := by
  have hplaced := Store.placed_place e t dst.store
  have hreads := Store.tree?_place t e dst.store
  have hordered := (Store.owned_place e t dst.store).ordered hdst.store
  rw [h.placed] at hplaced hreads hordered
  refine ⟨(wellFormed_iff _).mpr ⟨h.listed, hordered⟩, h.grown, fun r hr => ?_,
    holds_of_treeWithin hreads, hreads, h.size, h.lists⟩
  obtain ⟨d, hd⟩ := exists_tree? hdst hr
  have hsize : dst.store.size ≤ w.arena.store.size := by
    rw [size_store, size_store, h.size]
    omega
  rw [hd]
  exact Store.treeWithin_mono hsize (hplaced.grown.treeWithin hd)

/-- **Copying and canonical form only add.** Whatever is in the arena that is written to, what comes
out is the same: a copy of the tree, and its canonical form with a report that does not depend on
where it was put. -/
theorem writing_appends (policy : Policy) {src : Arena} (hsrc : src.WellFormed) {r : Ref}
    (hr : src.Holds r) : ∃ e, src.tree? r = some e ∧ ∀ dst : Arena, dst.WellFormed →
      (dst.HasRoom .keep e → ∃ w, src.copy? r dst = some w ∧ Appends dst e e w ∧
        src.sameTree? r w.arena w.ref = some true) ∧
      (dst.HasRoom (.canonical policy) e → ∃ w, src.canonical? policy r dst = some w ∧
        Appends dst e (e.canonical policy).expr w ∧ w.changed = (e.canonical policy).changed) := by
  obtain ⟨e, he⟩ := exists_tree? hsrc hr
  refine ⟨e, he, fun dst hdst => ⟨fun hroom => ?_, fun hroom => ?_⟩⟩
  · obtain ⟨w, hw, hlands⟩ := copy?_lands hsrc.listed he hdst.listed hroom
    have happends : Appends dst e e w := hlands.appends hdst
    refine ⟨w, hw, happends, ?_⟩
    rw [sameTree?_eq hsrc.listed hlands.listed he happends.reads, decide_eq_true rfl]
  · obtain ⟨w, hw, hlands⟩ := canonical?_lands hsrc.listed policy he hdst.listed hroom
    exact ⟨w, hw, hlands.appends hdst, hlands.changed⟩

/-- `f(x, x) + y`, with one cell for both arguments and one that is not reached. -/
def crowded : Arena :=
  ⟨#[⟨⟨2, 3⟩, .ident "x"⟩, ⟨⟨0, 7⟩, .call none "f" ⟨1, 2⟩⟩, ⟨⟨11, 12⟩, .error⟩,
    ⟨⟨10, 11⟩, .ident "y"⟩, ⟨⟨0, 11⟩, .binary .add (some 1) (some 3)⟩], #[none, some 0, some 0]⟩

theorem tree?_crowded : crowded.tree? (some 4) = some (.binary ⟨0, 11⟩ .add
    (.call ⟨0, 7⟩ .absent "f" [.ident ⟨2, 3⟩ "x", .ident ⟨2, 3⟩ "x"])
      (.ident ⟨10, 11⟩ "y")) := by decide +kernel

/-- Written to the arena it is read from, both ways. -/
theorem writing_appends_crowded : crowded.WellFormed ∧ crowded.Holds (some 4) ∧
    ∃ e, crowded.tree? (some 4) = some e ∧ crowded.HasRoom .keep e ∧
      crowded.HasRoom (.canonical .standard) e ∧
      (∃ w, crowded.copy? (some 4) crowded = some w ∧ Appends crowded e e w ∧
        crowded.sameTree? (some 4) w.arena w.ref = some true) ∧
      ∃ w, crowded.canonical? .standard (some 4) crowded = some w ∧
        Appends crowded e (e.canonical .standard).expr w ∧
        w.changed = (e.canonical .standard).changed := by
  have hwell : crowded.WellFormed := by decide +kernel
  obtain ⟨e, he, h⟩ := writing_appends .standard hwell (show crowded.Holds (some 4) by decide)
  obtain rfl := Option.some.inj (tree?_crowded.symm.trans he)
  refine ⟨hwell, by decide, _, he, by decide, by decide, (h crowded hwell).1 (by decide),
    (h crowded hwell).2 (by decide)⟩

/-! ### What is asked -/

/-- **Nothing is looked up in vain.** Of a reference that is absent or in a well-formed arena, every
operation gives the right answer; and an arena that has been written to is well-formed again. -/
theorem operations_answer (policy : Policy) (range : Span) {a b dst : Arena} (ha : a.WellFormed)
    (hb : b.WellFormed) (hdst : dst.WellFormed) {x y z : Ref} (hx : a.Holds x) (hy : a.Holds y)
    (hz : b.Holds z) :
    ∃ d e f, a.tree? x = some d ∧ a.tree? y = some e ∧ b.tree? z = some f ∧
      a.weight? x = some d.weight ∧
      a.isLarger? x y = some (d.profile.isLarger e.profile) ∧
      a.sameTree? x b z = some (decide (d = f)) ∧
      a.print? x = some d.print ∧
      (dst.HasRoom .keep d → ∃ w, a.copy? x dst = some w ∧ Appends dst d d w) ∧
      (dst.HasRoom (.canonical policy) d → ∃ w, a.canonical? policy x dst = some w ∧
        Appends dst d (d.canonical policy).expr w) ∧
      (empty.HasRoom (.within policy range) d → ∃ w, a.reorderWithin? policy range x = some w ∧
        Appends empty d (d.reorderWithin policy range).expr w) ∧
      (HasRoomBelow policy d → a.opportunities? policy x = some (d.opportunities policy)) := by
  -- every reference that is held reads a tree, and each operation is its function on that tree
  obtain ⟨d, hd⟩ := exists_tree? ha hx
  obtain ⟨e, he⟩ := exists_tree? ha hy
  obtain ⟨f, hf⟩ := exists_tree? hb hz
  refine ⟨d, e, f, hd, he, hf, weight?_eq ha.listed hd, isLarger?_eq ha.listed hd he,
    sameTree?_eq ha.listed hb.listed hd hf, print?_eq ha.listed hd, fun hroom => ?_,
    fun hroom => ?_, fun hroom => ?_, opportunities?_eq policy ha hd⟩
  · obtain ⟨w, hw, hlands⟩ := copy?_lands ha.listed hd hdst.listed hroom
    exact ⟨w, hw, hlands.appends hdst⟩
  · obtain ⟨w, hw, hlands⟩ := canonical?_lands ha.listed policy hd hdst.listed hroom
    exact ⟨w, hw, hlands.appends hdst⟩
  · obtain ⟨w, hw, hlands⟩ := reorderWithin?_lands ha policy range hd hroom
    exact ⟨w, hw, hlands.appends (by decide +kernel)⟩

/-- `g(?, x + ?) + x + ()`: a call with an argument that is absent, a sum with an operand that is
absent, and a chain without operands. -/
def sparse : Arena :=
  ⟨#[⟨⟨0, 1⟩, .ident "x"⟩, ⟨⟨9, 9⟩, .chain .add ⟨0, 0⟩⟩, ⟨⟨4, 6⟩, .binary .add (some 0) none⟩,
    ⟨⟨0, 8⟩, .call none "g" ⟨0, 2⟩⟩, ⟨⟨0, 9⟩, .chain .add ⟨2, 3⟩⟩],
      #[none, some 2, some 3, some 0, some 1]⟩

theorem tree?_sparse : sparse.tree? (some 4) = some (.chain ⟨0, 9⟩ .add
    [.call ⟨0, 8⟩ .absent "g" [.absent, .binary ⟨4, 6⟩ .add (.ident ⟨0, 1⟩ "x") .absent],
      .ident ⟨0, 1⟩ "x", .chain ⟨9, 9⟩ .add []]) := by decide +kernel

/-- The trees of two arenas, and one that is absent. -/
theorem operations_answer_sparse : sparse.WellFormed ∧ crowded.WellFormed ∧ sparse.Holds (some 4) ∧
    sparse.Holds none ∧ crowded.Holds (some 4) ∧
    ∃ d e f, sparse.tree? (some 4) = some d ∧ sparse.tree? none = some e ∧
      crowded.tree? (some 4) = some f ∧ sparse.weight? (some 4) = some d.weight ∧
      sparse.isLarger? (some 4) none = some (d.profile.isLarger e.profile) ∧
      sparse.sameTree? (some 4) crowded (some 4) = some (decide (d = f)) ∧
      sparse.print? (some 4) = some d.print ∧
      (∃ w, sparse.copy? (some 4) crowded = some w ∧ Appends crowded d d w) ∧
      (∃ w, sparse.canonical? .standard (some 4) crowded = some w ∧
        Appends crowded d (d.canonical .standard).expr w) ∧
      (∃ w, sparse.reorderWithin? .standard ⟨4, 5⟩ (some 4) = some w ∧
        Appends empty d (d.reorderWithin .standard ⟨4, 5⟩).expr w) ∧
      sparse.opportunities? .standard (some 4) = some (d.opportunities .standard) := by
  have hsparse : sparse.WellFormed := by decide +kernel
  have hcrowded : crowded.WellFormed := by decide +kernel
  obtain ⟨d, e, f, hd, he, hf, hweight, hlarger, hsame, hprint, hcopy, hcanonical, hreorder,
    hfound⟩ :=
    operations_answer .standard ⟨4, 5⟩ hsparse hcrowded hcrowded
      (show sparse.Holds (some 4) by decide)
      (show sparse.Holds none by decide) (show crowded.Holds (some 4) by decide)
  -- with the tree known, the room that the walks need is computed
  obtain rfl := Option.some.inj (tree?_sparse.symm.trans hd)
  refine ⟨hsparse, hcrowded, by decide, by decide, by decide, _, e, f, hd, he, hf, hweight, hlarger,
    hsame, hprint, hcopy (by decide), hcanonical (by decide), hreorder (by decide), hfound ?_⟩
  simp only [HasRoomBelow, Expr.Every, Expr.EveryOf]
  decide

end Arena

end OperandOrder
