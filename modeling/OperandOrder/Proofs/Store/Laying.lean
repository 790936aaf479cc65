import OperandOrder.Proofs.Nodes
import OperandOrder.Proofs.Store.Placing

/-!
# The store of a tree that was read

`Store.lay` adds the nodes of a tree in the order in which a reader completes them. The root is
handed back and not added yet, since a run of operands is closed only when the operand behind the
next operator has been read. What is handed back can be added to any later store (`Store.Laid`), and
that is why the order does not matter: `Store.tree?_ofParsed` says that the store of a tree denotes
that tree.
-/

namespace OperandOrder

theorem Expr.totals_sizes : Totals sizes size := fun e es => by rw [sizes]

theorem Expr.sizes_append (as bs : List Expr) : sizes (as ++ bs) = sizes as + sizes bs :=
  totals_sizes.append rfl as bs

namespace Store

/-- A tree is laid out wherever the store stands. -/
def Lays (e : Expr) : Prop := ∀ s, Laid e e s (lay e s).1 (lay e s).2

theorem Lays.placed {e : Expr} (h : Lays e) (s : Store) :
    Placed e e s (release (lay e s)).1 (release (lay e s)).2 :=
  (h s).placed

/-- Trees that are placed after others. -/
theorem PlacedAll.append {as bs : List Expr} {s s' s'' : Store} {rs rs' : List Ref}
    (h : PlacedAll as as s s' rs) (h' : PlacedAll bs bs s' s'' rs') :
    PlacedAll (as ++ bs) (as ++ bs) s s'' (rs ++ rs') := by
  refine ⟨h.grown.trans h'.grown, ?_, fun t ht n hn => ?_⟩
  · rw [h'.size, h.size, Expr.sizes_append, add_assoc]
  · rw [Expr.sizes_append] at hn
    rw [List.map_append, List.map_append, h.reads t (h'.grown.trans ht) n (by omega),
      h'.reads t ht n (by omega)]

/-- Trees that are laid out one by one are placed one by one. -/
theorem placedAll_layAll {es : List Expr} (h : ∀ e ∈ es, Lays e) (s : Store) :
    PlacedAll es es s (layAll es s).1 (layAll es s).2 := by
  induction es generalizing s with
  | nil => exact placedAll_nil s
  | cons e es ih =>
    obtain ⟨he, hes⟩ := List.forall_mem_cons.mp h
    exact (he.placed s).cons (ih hes _)

/-- **The first two operands.** A run that its neighbour closes is added behind that neighbour, to
which it makes no difference. -/
theorem placedAll_layPair {a b : Expr} (ha : Lays a) (hb : Lays b) (held : Bool) (s : Store) :
    PlacedAll [a, b] [a, b] s (layPair held (lay a) (lay b) s).1
      [(layPair held (lay a) (lay b) s).2.1, (layPair held (lay a) (lay b) s).2.2] := by
  cases held with
  | false => exact (ha.placed s).cons ((hb.placed _).cons (placedAll_nil _))
  | true =>
    have hfirst := ha s
    have hsecond := hb.placed (lay a s).1
    set after := release (lay b (lay a s).1) with hafter
    -- the first one is added to a store that has grown by the second one
    have hlater := hfirst.reads after.1 hsecond.grown
    have hgrown := extends_release after.1 (lay a s).2
    refine ⟨hfirst.grown.trans (hsecond.grown.trans hgrown), ?_, fun t ht n hn => ?_⟩
    · have hnodes := hfirst.size
      simp only [Expr.sizes]
      change (release (after.1, (lay a s).2)).1.size = _
      rw [size_release, hsecond.size]
      omega
    · simp only [Expr.sizes] at hn
      change [t.treeWithin n (release (after.1, (lay a s).2)).2, t.treeWithin n after.2] = _
      rw [hlater t ht n (by omega), hsecond.reads t (hgrown.trans ht) n (by omega)]
      rfl

/-- **Every tree is laid out.** -/
theorem lays (e : Expr) : Lays e := by
  induction e using Expr.induct with
  | absent => exact fun s => ⟨Extends.refl s, rfl, fun _ _ t' _ n _ => treeWithin_none t' n⟩
  | error span => exact fun s => laid_leaf rfl rfl .error
  | literal span kind text => exact fun s => laid_leaf rfl rfl (.literal kind text)
  | ident span name => exact fun s => laid_leaf rfl rfl (.ident name)
  | call span receiver name args hreceiver hargs =>
    intro s
    have hchildren := (hreceiver.placed s).cons (placedAll_layAll hargs _)
    exact laid_over hchildren (by simp only [Expr.size, Expr.sizes, add_assoc]) rfl (.call ..)
  | field span receiver name hreceiver =>
    exact fun s => laid_above (hreceiver.placed s) rfl rfl (.field ..)
  | unary span op operand hoperand =>
    exact fun s => laid_above (hoperand.placed s) rfl rfl (.unary ..)
  | paren span inner hinner => exact fun s => laid_above (hinner.placed s) rfl rfl (.paren ..)
  | binary span op left right hleft hright =>
    intro s
    have hoperands := placedAll_layPair hleft hright (closedBy op left) s
    exact laid_over hoperands (by simp only [Expr.size, Expr.sizes]; omega) rfl (.binary ..)
  | chain span op operands hoperands =>
    intro s
    -- a run needs a pair in front, of which the first may be closed by the operator
    rcases operands with _ | ⟨first, _ | ⟨second, others⟩⟩
    · exact laid_over (placedAll_layAll hoperands s) rfl rfl (.chain ..)
    · exact laid_over (placedAll_layAll hoperands s) rfl rfl (.chain ..)
    · obtain ⟨hfirst, hlater⟩ := List.forall_mem_cons.mp hoperands
      obtain ⟨hsecond, hothers⟩ := List.forall_mem_cons.mp hlater
      have hpair := placedAll_layPair hfirst hsecond (closedBy op first) s
      exact laid_over (hpair.append (placedAll_layAll hothers _)) rfl rfl (.chain ..)
  | conditional span cond yes no hcond hyes hno =>
    intro s
    have hchildren :=
      (hcond.placed s).cons ((hyes.placed _).cons ((hno.placed _).cons (placedAll_nil _)))
    exact laid_over hchildren (by simp only [Expr.size, Expr.sizes]; omega) rfl (.conditional ..)

/-- **The store of a tree denotes the tree.** -/
theorem tree?_ofParsed (e : Expr) : (ofParsed e).1.tree? (ofParsed e).2 = some e := by
  have h := (lays e).placed empty
  exact h.reads _ (Extends.refl _) _ (by rw [ofParsed, h.size]; omega)

end Store

end OperandOrder
