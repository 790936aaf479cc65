import OperandOrder.Parser.Draft
import OperandOrder.Proofs.Arena.Writing
import OperandOrder.Proofs.Store.Laying

/-!
# Trees that are built in an arena

A reader builds a tree in an arena from its leaves up. `Arena.Deposits` says what there is when a
part of it is done: nothing that was there has changed, the nodes that were added are those that
`Store.lay` lays out, and each list went into the list storage right before the cell that has it.

The node on top comes last (`Arena.Keeps`), and another tree may be built before it is added. So it
is for a run of operands, whose node is added when the run is closed (`Arena.Gathers`).
-/

namespace OperandOrder

namespace Arena

/-! ### Spans and lists -/

/-- **The list storage is made of the lists of the cells,** one behind the other. -/
def Compact (a : Arena) : Prop := a.lists.toList = a.store.nodes.toList.flatMap (·.shape.list)

instance (a : Arena) : Decidable a.Compact :=
  inferInstanceAs (Decidable (a.lists.toList = a.store.nodes.toList.flatMap (·.shape.list)))

/-- What has a span has it in every later arena. -/
theorem Extends.span? {a b : Arena} (h : a.Extends b) {r : Ref} {s : Span}
    (hr : a.span? r = some s) : b.span? r = some s := by
  obtain ⟨cell, hcell, rfl⟩ := Option.map_eq_some_iff.mp hr
  obtain ⟨i, rfl, hi⟩ := Option.bind_eq_some_iff.mp hcell
  have hlater : b.cells[i]? = some cell := by
    obtain ⟨more, hmore⟩ := h.cells
    rw [← Array.getElem?_toList] at hi ⊢
    rw [← hmore, List.getElem?_append_left (List.getElem?_eq_some_iff.mp hi).1, hi]
  exact Option.map_eq_some_iff.mpr ⟨cell, hlater, rfl⟩

section Push

variable {a : Arena} {node : Node} (h : a.Takes node.shape)

include h

/-- The span of a node that was added. -/
theorem span?_push : (a.push node).1.span? (a.push node).2 = some node.span := by
  rw [push_ref h, push_arena h]
  exact congrArg (Option.map Cell.span) Array.getElem?_push_size

/-- The list of a node that was added is the last one. -/
theorem compact_push (ha : a.Listed) (hcompact : a.Compact) : (a.push node).1.Compact := by
  rw [Compact] at hcompact ⊢
  rw [store_push h ha, push_arena h, Store.push, Array.toList_push, List.flatMap_append, ← hcompact]
  simp

end Push

/-! ### Room -/

/-- **Room** for so many cells and so many places of lists. -/
structure Room (a : Arena) (cells lists : Nat) : Prop where
  cells : a.size + cells ≤ Span.limit
  lists : a.lists.size + lists ≤ Span.limit

theorem Room.of_le {a : Arena} {m n m' n' : Nat} (h : a.Room m n) (hm : m' ≤ m) (hn : n' ≤ n) :
    a.Room m' n' :=
  ⟨(Nat.add_le_add_left hm _).trans h.cells, (Nat.add_le_add_left hn _).trans h.lists⟩

/-- Room for the first of two. -/
theorem Room.left {a : Arena} {m n m' n' : Nat} (h : a.Room (m + m') (n + n')) : a.Room m n :=
  h.of_le (Nat.le_add_right m m') (Nat.le_add_right n n')

/-! ### What has been built -/

/-- **A tree that has been built** in an arena, with a reference to it. -/
structure Deposits (e : Expr) (a : Arena) (r : Ref) (a' : Arena) : Prop where
  grown : a.Extends a'
  listed : a'.Listed
  laid : Store.release (Store.lay e a.store) = (a'.store, r)
  lists : a'.lists.size = a.lists.size + e.listed
  compact : a.Compact → a'.Compact
  span : a'.span? r = some e.span

/-- **Trees that have been built** one after the other. -/
structure DepositsAll (es : List Expr) (a : Arena) (rs : List Ref) (a' : Arena) : Prop where
  grown : a.Extends a'
  listed : a'.Listed
  laid : Store.layAll es a.store = (a'.store, rs)
  lists : a'.lists.size = a.lists.size + Expr.listedAll es
  compact : a.Compact → a'.Compact

/-- **A tree of which all but the node on top has been built.** -/
structure Keeps (e : Expr) (a : Arena) (node : Node) (a' : Arena) : Prop where
  grown : a.Extends a'
  listed : a'.Listed
  laid : Store.lay e a.store = (a'.store, some node)
  lists : a'.lists.size + node.shape.list.length = a.lists.size + e.listed
  compact : a.Compact → a'.Compact
  span : node.span = e.span

section Building

variable {e x y z : Expr} {es : List Expr} {a a₁ a₂ a₃ : Arena} {r r₁ r₂ r₃ : Ref} {rs : List Ref}
  {node : Node}

/-- Every node of a tree that has been built has a cell. -/
theorem Deposits.size (h : Deposits e a r a₁) : a₁.size = a.size + e.size := by
  have hplaced := (Store.lays e).placed a.store
  rw [h.laid] at hplaced
  simpa using hplaced.size

theorem DepositsAll.placedAll (h : DepositsAll es a rs a₁) :
    Store.PlacedAll es es a.store a₁.store rs := by
  have hplaced := Store.placedAll_layAll (fun e (_ : e ∈ es) => Store.lays e) a.store
  rwa [h.laid] at hplaced

theorem DepositsAll.size (h : DepositsAll es a rs a₁) : a₁.size = a.size + Expr.sizes es := by
  simpa using h.placedAll.size

theorem DepositsAll.length (h : DepositsAll es a rs a₁) : rs.length = es.length := by
  simpa using congrArg List.length (h.placedAll.reads _ (.refl _) _ (le_refl _))

/-- All cells but one are there. -/
theorem Keeps.size (h : Keeps e a node a₁) : a₁.size + 1 = a.size + e.size := by
  have hlaid := Store.lays e a.store
  rw [h.laid] at hlaid
  simpa using hlaid.size

/-- Behind a tree that has been built there is less room. -/
theorem Deposits.room (h : Deposits e a r a₁) {m n : Nat}
    (hroom : a.Room (e.size + m) (e.listed + n)) : a₁.Room m n :=
  ⟨by rw [h.size, Nat.add_assoc]; exact hroom.cells,
    by rw [h.lists, Nat.add_assoc]; exact hroom.lists⟩

theorem DepositsAll.room (h : DepositsAll es a rs a₁) {m n : Nat}
    (hroom : a.Room (Expr.sizes es + m) (Expr.listedAll es + n)) : a₁.Room m n :=
  ⟨by rw [h.size, Nat.add_assoc]; exact hroom.cells,
    by rw [h.lists, Nat.add_assoc]; exact hroom.lists⟩

theorem DepositsAll.nil (ha : a.Listed) : DepositsAll [] a [] a := ⟨.refl a, ha, rfl, rfl, id⟩

theorem Deposits.cons (h : Deposits e a r a₁) (h' : DepositsAll es a₁ rs a₂) :
    DepositsAll (e :: es) a (r :: rs) a₂ := by
  refine ⟨h.grown.trans h'.grown, h'.listed, ?_, ?_, fun ha => h'.compact (h.compact ha)⟩
  · rw [Store.layAll, h.laid, h'.laid]
  · rw [h'.lists, h.lists, Expr.listedAll, Nat.add_assoc]

/-- A tree that is not there in front of others takes no cell. -/
theorem DepositsAll.cons_absent (h : DepositsAll es a rs a₁) :
    DepositsAll (.absent :: es) a (none :: rs) a₁ := by
  refine ⟨h.grown, h.listed, ?_, ?_, h.compact⟩
  · simp only [Store.layAll, Store.lay, Store.release, h.laid]
  · rw [h.lists, Expr.listedAll, Expr.listed, Nat.zero_add]

/-- Trees are laid out one by one, the last of them last. -/
theorem layAll_concat (es : List Expr) (x : Expr) (s : Store) :
    Store.layAll (es ++ [x]) s =
      ((Store.release (Store.lay x (Store.layAll es s).1)).1,
        (Store.layAll es s).2 ++ [(Store.release (Store.lay x (Store.layAll es s).1)).2]) := by
  induction es generalizing s with
  | nil => rfl
  | cons e es ih =>
    rw [List.cons_append, Store.layAll, ih]
    rfl

/-- One more tree behind others. -/
theorem DepositsAll.concat (h : DepositsAll es a rs a₁) (h' : Deposits x a₁ r a₂) :
    DepositsAll (es ++ [x]) a (rs ++ [r]) a₂ := by
  refine ⟨h.grown.trans h'.grown, h'.listed, ?_, ?_, fun ha => h'.compact (h.compact ha)⟩
  · rw [layAll_concat, h.laid, h'.laid]
  · rw [h'.lists, h.lists, Expr.totals_listedAll.append rfl, Nat.add_assoc]
    rfl

/-- A node on top of what has been built. -/
theorem DepositsAll.keeps {span : Span} {shape : Shape} (h : DepositsAll es a rs a₁)
    (hbuilds : shape.Builds span es e) (hlength : es.length = shape.children.length)
    (hlaid : Store.lay e a.store = (a₁.store, some ⟨span, shape⟩)) (hspan : e.span = span) :
    Keeps e a ⟨span, shape⟩ a₁ := by
  refine ⟨h.grown, h.listed, hlaid, ?_, h.compact, hspan.symm⟩
  rw [h.lists, hbuilds.listed_eq hlength, Nat.add_assoc]

/-- **Adding the node on top,** now or when other trees have been built. -/
theorem Keeps.add (h : Keeps e a node a₁) (hgrown : a₁.Extends a₂) (hlisted : a₂.Listed)
    (htakes : a₂.Takes node.shape) :
    a.Extends (a₂.push node).1 ∧ (a₂.push node).1.Listed ∧
      Store.release (a₂.store, some node) = ((a₂.push node).1.store, (a₂.push node).2) ∧
      (a₂.push node).1.span? (a₂.push node).2 = some e.span := by
  refine ⟨h.grown.trans (hgrown.trans (extends_push htakes)), listed_push htakes hlisted, ?_, ?_⟩
  · rw [Store.release, store_push htakes hlisted, push_ref htakes, ← size_store]
    rfl
  · rw [span?_push htakes, h.span]

theorem Keeps.takes (h : Keeps e a node a₁) (hroom : a.Room e.size e.listed) :
    a₁.Takes node.shape := by
  obtain ⟨hcells, hlists⟩ := hroom
  exact ⟨by have := h.size; omega, by have := h.lists; omega⟩

/-- Room for a tree and another one is room for its node behind the other one. -/
theorem Keeps.takes_later (h : Keeps e a node a₁) (h' : Deposits x a₁ r a₂)
    (hroom : a.Room (e.size + x.size) (e.listed + x.listed)) : a₂.Takes node.shape := by
  obtain ⟨hcells, hlists⟩ := hroom
  constructor
  · have := h.size
    rw [h'.size]
    omega
  · have := h.lists
    rw [h'.lists]
    omega

/-- **The node on top is added:** the tree has been built. -/
theorem Keeps.deposits (h : Keeps e a node a₁) (hroom : a.Room e.size e.listed) :
    Deposits e a (a₁.push node).2 (a₁.push node).1 := by
  have htakes := h.takes hroom
  obtain ⟨hgrown, hlisted, hadded, hspan⟩ := h.add (.refl a₁) h.listed htakes
  refine ⟨hgrown, hlisted, ?_, ?_, fun ha => compact_push htakes h.listed (h.compact ha), hspan⟩
  · rw [h.laid, hadded]
  · rw [lists_size_push htakes, h.lists]

/-- A node without children. -/
theorem deposits_leaf {span : Span} {shape : Shape} (hbuilds : shape.Builds span [] e)
    (hchildren : shape.children = []) (hlaid : ∀ s, Store.lay e s = (s, some ⟨span, shape⟩))
    (hspan : e.span = span) (ha : a.Listed) (hroom : a.Room e.size e.listed) :
    Deposits e a (a.push ⟨span, shape⟩).2 (a.push ⟨span, shape⟩).1 :=
  ((DepositsAll.nil ha).keeps hbuilds (by rw [hchildren]; rfl) (hlaid _) hspan).deposits hroom

end Building

/-! ### Runs of operands -/

/-- **Operands of a run that have been built,** and are all that has been built. The node that joins
them is not there yet. -/
structure Gathers (op : BinaryOp) (es : List Expr) (a : Arena) (rs : List Ref) (a' : Arena) :
    Prop where
  grown : a.Extends a'
  listed : a'.Listed
  laid : ∀ span, Store.lay (.join span op es) a.store = (a'.store, some ⟨span, .join op rs⟩)
  length : rs.length = es.length
  lists : a'.lists.size = a.lists.size + Expr.listedAll es
  compact : a.Compact → a'.Compact

section Gathering

variable {op : BinaryOp} {e x : Expr} {es : List Expr} {a a₁ a₂ : Arena} {r r' : Ref}
  {rs : List Ref} {node : Node}

/-- Joining the operands is all that is left to do. -/
theorem Gathers.keeps (h : Gathers op es a rs a₁) (span : Span) :
    Keeps (.join span op es) a ⟨span, .join op rs⟩ a₁ := by
  have hlisted := (Store.builds_join span op h.length).listed_eq (by simp [h.length])
  exact ⟨h.grown, h.listed, h.laid span, by rw [h.lists, hlisted, Nat.add_assoc], h.compact,
    (Expr.span_join span op es).symm⟩

/-- **The first two operands,** the first of them no run of their level. -/
theorem Deposits.gathers (h : Deposits e a r a₁) (h' : Deposits x a₁ r' a₂)
    (hfree : Store.closedBy op e = false) : Gathers op [e, x] a [r, r'] a₂ := by
  obtain ⟨hgrown, hlisted, -, hlists, hcompact⟩ := h.cons (h'.cons (.nil h'.listed))
  refine ⟨hgrown, hlisted, fun span => ?_, rfl, hlists, hcompact⟩
  rw [Expr.join, Store.lay, hfree]
  simp only [Store.layPair, Bool.false_eq_true, if_false, h.laid, h'.laid, Shape.join]

/-- **A run that another operator closes:** the operand behind the operator has been built, and the
node of the run is added now. -/
theorem Keeps.gathers (h : Keeps e a node a₁) (h' : Deposits x a₁ r' a₂)
    (hclosed : Store.closedBy op e = true) (htakes : a₂.Takes node.shape) :
    Gathers op [e, x] a [(a₂.push node).2, r'] (a₂.push node).1 := by
  obtain ⟨hgrown, hlisted, hadded, -⟩ := h.add h'.grown h'.listed htakes
  refine ⟨hgrown, hlisted, fun span => ?_, rfl, ?_, fun ha => ?_⟩
  · rw [Expr.join, Store.lay, hclosed]
    simp only [Store.layPair, if_true, h.laid, h'.laid, hadded, Shape.join]
  · rw [lists_size_push htakes, h'.lists, Nat.add_right_comm, h.lists, Nat.add_assoc]
    rfl
  · exact compact_push htakes h'.listed (h'.compact (h.compact ha))

/-- How a run of two operands or more is laid out. -/
theorem lay_join (span : Span) (op : BinaryOp) (first second : Expr) (others : List Expr)
    (s : Store) : Store.lay (.join span op (first :: second :: others)) s =
      let two := Store.layPair (Store.closedBy op first) (Store.lay first) (Store.lay second) s
      let rest := Store.layAll others two.1
      (rest.1, some ⟨span, .join op (two.2.1 :: two.2.2 :: rest.2)⟩) := by
  cases others with
  | nil => rfl
  | cons third others => rfl

/-- **One more operand** of a run of two or more. -/
theorem Gathers.concat {first second : Expr} {others : List Expr}
    (h : Gathers op (first :: second :: others) a rs a₁) (h' : Deposits x a₁ r a₂) :
    Gathers op (first :: second :: (others ++ [x])) a (rs ++ [r]) a₂ := by
  refine ⟨h.grown.trans h'.grown, h'.listed, fun span => ?_, by simp [h.length], ?_,
    fun ha => h'.compact (h.compact ha)⟩
  · have hlaid := h.laid span
    rw [lay_join] at hlaid ⊢
    obtain ⟨hstore, hnode⟩ := Prod.mk.inj hlaid
    obtain ⟨-, hshape⟩ := Node.mk.inj (Option.some.inj hnode)
    -- a joined node tells its operands
    have hrs := congrArg Shape.children hshape
    rw [Store.children_join, Store.children_join] at hrs
    simp only [layAll_concat, hstore, h'.laid, ← hrs, List.cons_append]
  · have hall := Expr.totals_listedAll.append rfl (first :: second :: others) [x]
    rw [h'.lists, h.lists, Nat.add_assoc]
    exact congrArg (a.lists.size + ·) hall.symm

end Gathering

end Arena

end OperandOrder
