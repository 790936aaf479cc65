import OperandOrder.Arena
import OperandOrder.Proofs.Store.Ownership

/-!
# Arenas as stores

An arena is **well-formed** if every list lies in the list storage and every child stands before its
parent. In an arena of which the first is true (`Arena.Listed`), a look-up of a node finds what the
store of its nodes has (`Arena.node?_eq`), so nothing is lost by reading the store instead.

Adding a node to an arena adds the same node to its store (`Arena.store_push`) and changes nothing
that was there (`Arena.extends_push`). Both need room, since cells and lists are numbered up to a
limit.
-/

namespace OperandOrder

namespace Arena

/-! ### Well-formed arenas -/

/-- The list of a cell lies in the list storage. -/
def InLists (a : Arena) (k : Kind) : Prop :=
  ∀ s, k.stretch? = some s → s.start + s.length ≤ a.lists.size

/-- Every list lies in the list storage. -/
def Listed (a : Arena) : Prop :=
  ∀ (i : Nat) (cell : Cell), a.cells[i]? = some cell → a.InLists cell.kind

/-- **A well-formed arena:** its lists lie in the list storage, and a child is absent or stands
before its parent. -/
structure WellFormed (a : Arena) : Prop where
  listed : a.Listed
  ordered : ∀ i node, a.node? (some i) = some node → ∀ j, some j ∈ node.shape.children → j < i

/-- A reference into the arena: absent, or the number of a cell. -/
def Holds (a : Arena) (r : Ref) : Prop := ∀ i, r = some i → i < a.size

instance (a : Arena) (k : Kind) : Decidable (a.InLists k) :=
  decidable_of_iff ((k.stretch?.all fun s => s.start + s.length ≤ a.lists.size) = true) (by
    simp [InLists, Option.all_eq_true])

instance (a : Arena) : Decidable a.Listed :=
  decidable_of_iff (∀ cell ∈ a.cells.toList, a.InLists cell.kind) (by
    simp only [Listed, Array.mem_toList_iff, Array.mem_iff_getElem?]
    exact ⟨fun h i cell hi => h cell ⟨i, hi⟩, fun h cell ⟨i, hi⟩ => h i cell hi⟩)

instance (a : Arena) (r : Ref) : Decidable (a.Holds r) :=
  decidable_of_iff (r.all (· < a.size) = true) (by cases r <;> simp [Holds])

@[simp] theorem size_store (a : Arena) : a.store.size = a.size := Array.size_map

/-- A node of the store is the cell at its place, with its lists filled in. -/
theorem node?_store (a : Arena) (i : Nat) : a.store.node? i = a.cells[i]?.map a.nodeOf :=
  Array.getElem?_map

/-- What the arena holds, its store holds. -/
theorem holds_store {a : Arena} {r : Ref} (h : a.Holds r) : a.store.Holds r := fun i hi =>
  (h i hi).trans_eq a.size_store.symm

/-- A stretch within the list storage has its references there. -/
theorem list?_eq_some {a : Arena} {s : Stretch} (h : s.start + s.length ≤ a.lists.size) :
    a.list? s = some ((a.lists.toList.drop s.start).take s.length) := by
  rw [list?, if_pos h, Array.toList_extract, List.extract_eq_take_drop, Nat.add_sub_cancel_left]

/-- A stretch within the list storage is found, with as many references as it says. -/
theorem exists_list? {a : Arena} {s : Stretch} (h : s.start + s.length ≤ a.lists.size) :
    ∃ refs, a.list? s = some refs ∧ refs.length = s.length := by
  refine ⟨_, list?_eq_some h, ?_⟩
  rw [List.length_take, List.length_drop, Array.length_toList]
  omega

/-- **A cell whose list is there** has a shape. -/
theorem exists_shape? {a : Arena} {k : Kind} (h : a.InLists k) :
    ∃ refs, a.shape? k = some (k.withList refs) ∧
      ∀ s, k.stretch? = some s → a.list? s = some refs ∧ refs.length = s.length := by
  rw [shape?]
  cases hs : k.stretch? with
  | none => exact ⟨[], rfl, nofun⟩
  | some s =>
    obtain ⟨refs, hrefs, hlength⟩ := exists_list? (h s hs)
    refine ⟨refs, congrArg (Option.map k.withList) hrefs, fun t ht => ?_⟩
    obtain rfl := Option.some.inj ht
    exact ⟨hrefs, hlength⟩

/-- A list of the right length does not show in the form. -/
theorem form_withList {k : Kind} {refs : List Ref}
    (h : ∀ s, k.stretch? = some s → refs.length = s.length) : (k.withList refs).form = k.form := by
  cases k with
  | call receiver name args => exact congrArg Form.call (h args rfl)
  | _ => rfl

section Listed

variable {a : Arena} (ha : a.Listed)

include ha

/-- **A look-up finds what the store has.** -/
theorem node?_eq (i : Nat) : a.node? (some i) = a.store.node? i := by
  change (a.cells[i]?.bind fun cell => (a.shape? cell.kind).bind fun shape => some
    (⟨cell.span, shape⟩ : Node)) = (a.cells.map a.nodeOf)[i]?
  rw [Array.getElem?_map]
  cases hcell : a.cells[i]? with
  | none => rfl
  | some cell =>
    obtain ⟨shape, hshape, -⟩ := exists_shape? (ha i cell hcell)
    rw [Option.bind_some, hshape, Option.map_some, nodeOf, hshape]
    rfl

/-- The form of a cell is that of the node it stands for. -/
theorem form?_eq (i : Nat) : a.form? (some i) = a.store.form? (some i) := by
  change a.cells[i]?.map (·.kind.form) = (a.cells.map a.nodeOf)[i]?.map (·.shape.form)
  rw [Array.getElem?_map]
  cases hcell : a.cells[i]? with
  | none => rfl
  | some cell =>
    obtain ⟨refs, hshape, hrefs⟩ := exists_shape? (ha i cell hcell)
    rw [Option.map_some, Option.map_some, Option.map_some, nodeOf, hshape, Option.getD_some,
      form_withList fun s hs => (hrefs s hs).2]

end Listed

/-- An arena is well-formed if its lists are there and its store is well-formed. -/
theorem wellFormed_iff (a : Arena) : a.WellFormed ↔ a.Listed ∧ a.store.WellFormed := by
  constructor
  · rintro ⟨hlisted, hordered⟩
    exact ⟨hlisted, fun i node hi => hordered i node ((node?_eq hlisted i).trans hi)⟩
  · rintro ⟨hlisted, hordered⟩
    exact ⟨hlisted, fun i node hi => hordered i node ((node?_eq hlisted i).symm.trans hi)⟩

instance (a : Arena) : Decidable a.WellFormed := decidable_of_iff' _ a.wellFormed_iff

/-- The store of a well-formed arena is well-formed. -/
theorem WellFormed.store {a : Arena} (h : a.WellFormed) : a.store.WellFormed :=
  (a.wellFormed_iff.mp h).2

/-- **Every reference into a well-formed arena denotes a tree.** -/
theorem exists_tree? {a : Arena} (ha : a.WellFormed) {r : Ref} (hr : a.Holds r) :
    ∃ e, a.tree? r = some e :=
  Store.exists_tree? ha.store (holds_store hr)

/-- What denotes a tree is in the arena. -/
theorem holds_of_treeWithin {a : Arena} {n : Nat} {r : Ref} {e : Expr}
    (he : a.store.treeWithin n r = some e) : a.Holds r := by
  rintro i rfl
  obtain ⟨m, node, -, -, hnode, -⟩ := Store.exists_node_of_treeWithin he
  exact (Store.lt_size_of_node? hnode).trans_eq a.size_store

/-! ### Growth -/

/-- **Growth:** all cells and all places of the lists are what they were. -/
structure Extends (a b : Arena) : Prop where
  cells : a.cells.toList <+: b.cells.toList
  lists : a.lists.toList <+: b.lists.toList

theorem Extends.refl (a : Arena) : a.Extends a := ⟨List.prefix_rfl, List.prefix_rfl⟩

/-- One extension after another. -/
theorem Extends.trans {a b c : Arena} (h : a.Extends b) (h' : b.Extends c) : a.Extends c :=
  ⟨h.cells.trans h'.cells, h.lists.trans h'.lists⟩

namespace Extends

variable {a b : Arena} (h : a.Extends b)

include h

theorem lists_size_le : a.lists.size ≤ b.lists.size := h.lists.length_le

/-- A list stays the same when the arena grows. -/
theorem list? {s : Stretch} (hs : s.start + s.length ≤ a.lists.size) : b.list? s = a.list? s := by
  obtain ⟨more, hmore⟩ := h.lists
  rw [list?_eq_some hs, list?_eq_some (hs.trans h.lists_size_le), ← hmore,
    List.drop_append_of_le_length, List.take_append_of_le_length]
  · rw [List.length_drop, Array.length_toList]
    omega
  · rw [Array.length_toList]
    omega

/-- A shape stays the same when the arena grows. -/
theorem shape? {k : Kind} (hk : a.InLists k) : b.shape? k = a.shape? k := by
  rw [Arena.shape?, Arena.shape?]
  cases hs : k.stretch? with
  | none => rfl
  | some s => exact congrArg (Option.map k.withList) (h.list? (hk s hs))

/-- The cells that were there hold the same nodes. -/
theorem map_nodeOf (ha : a.Listed) : a.cells.map b.nodeOf = a.cells.map a.nodeOf := by
  refine Array.map_congr_left fun cell hcell => ?_
  obtain ⟨i, hi⟩ := Array.mem_iff_getElem?.mp hcell
  rw [nodeOf, nodeOf, h.shape? (ha i cell hi)]

end Extends

/-! ### Adding a node -/

/-- **Room for a node:** for its cell, and for its list. -/
structure Takes (a : Arena) (shape : Shape) : Prop where
  cell : a.size < Span.limit
  list : a.lists.size + shape.list.length ≤ Span.limit

theorem size_appended (lists : Array Ref) (refs : List Ref) :
    (lists ++ refs).size = lists.size + refs.length := by
  rw [← Array.length_toList, Array.toList_appendList, List.length_append, Array.length_toList]

/-- A list that there is room for is written behind the others. -/
theorem pushList_eq {a : Arena} {refs : List Ref} (h : a.lists.size + refs.length ≤ Span.limit) :
    a.pushList refs = (⟨a.cells, a.lists ++ refs⟩, ⟨a.lists.size, refs.length⟩) := by
  rw [pushList, size_appended, Nat.min_eq_left h, Nat.min_eq_left (by omega),
    Nat.add_sub_cancel_left]

/-- What has been written is read back. -/
theorem list?_appended (a : Arena) (refs : List Ref) :
    (⟨a.cells, a.lists ++ refs⟩ : Arena).list? ⟨a.lists.size, refs.length⟩ = some refs := by
  rw [list?_eq_some (size_appended a.lists refs).ge]
  simp

/-- **A list that was added** is where the cell says. -/
theorem pushShape_spec {a : Arena} {shape : Shape}
    (h : a.lists.size + shape.list.length ≤ Span.limit) :
    (a.pushShape shape).1 = ⟨a.cells, a.lists ++ shape.list⟩ ∧
      (a.pushShape shape).1.shape? (a.pushShape shape).2 = some shape ∧
      (a.pushShape shape).1.InLists (a.pushShape shape).2 := by
  have hsame : (⟨a.cells, a.lists ++ ([] : List Ref)⟩ : Arena) = a := by simp
  -- only calls and chains have a list; it goes to the end of the storage
  cases shape with
  | call receiver name args =>
    rw [Shape.list] at h ⊢
    rw [pushShape, pushList_eq h]
    refine ⟨rfl, Option.map_eq_some_iff.mpr ⟨args, a.list?_appended args, rfl⟩, fun s hs => ?_⟩
    obtain rfl := Option.some.inj hs
    exact (size_appended a.lists args).ge
  | chain op operands =>
    rw [Shape.list] at h ⊢
    rw [pushShape, pushList_eq h]
    refine ⟨rfl, Option.map_eq_some_iff.mpr ⟨operands, a.list?_appended operands, rfl⟩,
      fun s hs => ?_⟩
    obtain rfl := Option.some.inj hs
    exact (size_appended a.lists operands).ge
  | _ => exact ⟨hsame.symm, rfl, nofun⟩

section Push

variable {a : Arena} {node : Node} (h : a.Takes node.shape)

include h

/-- A new node has the next place. -/
theorem push_ref : (a.push node).2 = some a.size := by
  have hcells : (a.pushShape node.shape).1.cells.size = a.size := by
    rw [(pushShape_spec h.list).1, size]
  rw [push, hcells, refOf, if_pos h.cell]

/-- **What a new node adds:** its cell, and its list of references if it has one. -/
theorem push_arena : (a.push node).1 =
    ⟨a.cells.push ⟨node.span, (a.pushShape node.shape).2⟩, a.lists ++ node.shape.list⟩ := by
  rw [push, (pushShape_spec h.list).1]

/-- The list storage grows by the references of the new node. -/
theorem lists_size_push : (a.push node).1.lists.size = a.lists.size + node.shape.list.length := by
  rw [push_arena h]
  exact size_appended a.lists node.shape.list

/-- A new node leaves all others as they are. -/
theorem extends_push : a.Extends (a.push node).1 := by
  rw [push_arena h]
  exact ⟨by simp, by simp⟩

/-- The cell that was added has its list, and shows the node. -/
theorem shape?_push : (a.push node).1.shape? (a.pushShape node.shape).2 = some node.shape ∧
    (a.push node).1.InLists (a.pushShape node.shape).2 := by
  obtain ⟨-, hshape, hin⟩ := pushShape_spec h.list
  -- the cell comes after the list, and changes nothing of it
  have hcell : (a.pushShape node.shape).1.Extends (a.push node).1 :=
    ⟨by simp [push], List.prefix_rfl⟩
  exact ⟨(hcell.shape? hin).trans hshape, hin⟩

/-- A new node has its list in the storage. -/
theorem listed_push (ha : a.Listed) : (a.push node).1.Listed := by
  intro i cell hi
  rw [push_arena h, Array.getElem?_push] at hi
  split at hi
  next =>
    obtain rfl := Option.some.inj hi
    exact (shape?_push h).2
  next => exact fun s hs => (ha i cell hi s hs).trans (extends_push h).lists_size_le

/-- **A node that is added to an arena** is added to its store. -/
theorem store_push (ha : a.Listed) : (a.push node).1.store = (a.store.push node).1 := by
  have hnew : (a.push node).1.nodeOf ⟨node.span, (a.pushShape node.shape).2⟩ = node := by
    rw [nodeOf, (shape?_push h).1, Option.getD_some]
  have hcells : (a.push node).1.cells = a.cells.push ⟨node.span, (a.pushShape node.shape).2⟩ := by
    rw [push_arena h]
  rw [store, hcells, Array.map_push, (extends_push h).map_nodeOf ha, hnew]
  rfl

end Push

end Arena

end OperandOrder
