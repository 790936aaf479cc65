import OperandOrder.Proofs.Parser.Filling
import OperandOrder.Proofs.Store.Laying

/-!
# Single ownership

A store may hold nodes that several parents share, nodes that no reference leads to, and any number
of trees. A store in which a tree is laid out or placed holds **exactly one tree**
(`Store.IsOneTree`): every node is reached from the root, every other node has one child slot that
refers to it, and children stand before their parents.

The invariant behind it is an account of references (`Store.Owned`): between two stages of the work,
every node that was added is referred to once, by a slot of a node that was added as well or by one
of the *loose* references that are still in hand. Adding a node takes its children out of the loose
references and puts its own place there instead. At the end the root alone is loose. That everything
is reached then follows from the order of the nodes: a node that is not the root has a parent
further on, and so it goes until the root.
-/

namespace OperandOrder

namespace Store

/-! ### Slots and owners -/

/-- **The child slots of a store,** node by node. -/
def slots (s : Store) : List Ref := s.nodes.toList.flatMap fun node => node.shape.children

/-- **Number of the child slots that refer to a node.** -/
def owners (s : Store) (i : Nat) : Nat := s.slots.count (some i)

/-- A new node owns its children. -/
theorem owners_push (s : Store) (node : Node) (i : Nat) :
    (s.push node).1.owners i = s.owners i + node.shape.children.count (some i) := by
  have hslots : (s.push node).1.slots = s.slots ++ node.shape.children := by
    simp [slots, push]
  rw [owners, hslots, List.count_append, owners]

/-- What is owned is a child of a node. -/
theorem owners_pos_iff {s : Store} {j : Nat} :
    0 < s.owners j ↔ ∃ i node, s.node? i = some node ∧ some j ∈ node.shape.children := by
  rw [owners, List.count_pos_iff, slots, List.mem_flatMap]
  constructor
  · rintro ⟨node, hnode, hj⟩
    obtain ⟨i, hi⟩ := List.mem_iff_getElem?.mp hnode
    exact ⟨i, node, by rwa [Array.getElem?_toList] at hi, hj⟩
  · rintro ⟨i, node, hi, hj⟩
    exact ⟨node, List.mem_iff_getElem?.mpr ⟨i, by rwa [Array.getElem?_toList]⟩, hj⟩

/-- What is referred to in a well-formed store is there. -/
theorem lt_size_of_owners {s : Store} (hs : s.WellFormed) {j : Nat} (h : 0 < s.owners j) :
    j < s.size := by
  obtain ⟨i, node, hi, hj⟩ := owners_pos_iff.mp h
  exact (hs i node hi j hj).trans (lt_size_of_node? hi)

/-- A store stays well-formed if the children of a new node are there. -/
theorem wellFormed_push {s : Store} (hs : s.WellFormed) {node : Node}
    (h : ∀ j, some j ∈ node.shape.children → j < s.size) : (s.push node).1.WellFormed := by
  intro i old hi j hj
  have hlt := lt_size_of_node? hi
  rw [size_push] at hlt
  rcases Nat.lt_succ_iff_lt_or_eq.mp hlt with hold | rfl
  · -- the node was there before
    obtain ⟨node', hnode'⟩ := exists_node? hold
    obtain rfl : node' = old := Option.some.inj ((extends_push s node i node' hnode').symm.trans hi)
    exact hs i node' hnode' j hj
  · obtain rfl : node = old := Option.some.inj ((node?_push s node).symm.trans hi)
    exact h j hj

/-! ### One tree -/

/-- **The nodes that are reached** from a reference, going from parents to children. -/
inductive Reaches (s : Store) (r : Ref) : Nat → Prop
  | root {i : Nat} (h : r = some i) : Reaches s r i
  | child {i j : Nat} {node : Node} (hi : Reaches s r i) (hnode : s.node? i = some node)
      (hj : some j ∈ node.shape.children) : Reaches s r j

/-- **A store that is exactly one tree.** -/
structure IsOneTree (s : Store) (r : Ref) : Prop where
  /-- The root is there, and no slot refers to it. -/
  root : ∃ i < s.size, r = some i ∧ s.owners i = 0
  /-- Children stand before their parents. -/
  ordered : s.WellFormed
  /-- Every node is reached. -/
  reached : ∀ i < s.size, s.Reaches r i
  /-- Every node but the root is referred to by one slot. -/
  owned : ∀ i < s.size, r ≠ some i → s.owners i = 1

/-- What a node is built of are its children, but for a receiver that is not there. -/
theorem mem_children_of_builds {span : Span} {shape : Shape} {es : List Expr} {x y : Expr}
    (h : shape.Builds span es x) (hy : y ∈ es) (hpresent : y ≠ .absent) : y ∈ x.children := by
  cases h with
  | call a name as receiver args =>
    rcases List.mem_cons.mp hy with rfl | hy
    · exact Expr.mem_children_call.mpr (.inl ⟨rfl, hpresent⟩)
    · exact Expr.mem_children_call.mpr (.inr hy)
  | error => exact absurd hy List.not_mem_nil
  | literal kind text => exact absurd hy List.not_mem_nil
  | ident name => exact absurd hy List.not_mem_nil
  | _ => exact hy

/-- What is reached denotes a node of the tree that the root denotes. -/
theorem Reaches.exists_hasNode {s : Store} {r : Ref} {e : Expr} (he : s.tree? r = some e) {i : Nat}
    (h : s.Reaches r i) : ∃ n x, s.treeWithin n (some i) = some x ∧ e.HasNode x := by
  induction h with
  | root hr =>
    subst hr
    exact ⟨s.size, e, he, .self e⟩
  | @child i j node _ hnode hj ih =>
    obtain ⟨n, x, hx, hnodeOf⟩ := ih
    obtain ⟨m, node', es, rfl, hnode', hes, hbuilds⟩ := exists_node_of_treeWithin hx
    obtain rfl : node = node' := Option.some.inj (hnode.symm.trans hnode')
    -- the child that `j` denotes is among the trees that the node is built of
    rw [mapM_eq_some_iff] at hes
    have hmem : s.treeWithin m (some j) ∈ es.map some := hes ▸ List.mem_map_of_mem hj
    obtain ⟨y, hy, hread⟩ := List.mem_map.mp hmem
    have hchild := mem_children_of_builds hbuilds hy (ne_absent_of_treeWithin hread.symm)
    exact ⟨m, y, hread.symm, hnodeOf.child hchild⟩

/-- **Every node is reached** if every node but the root has an owner: from a node the way leads to
a parent, which stands further on, and so it cannot but end at the root. -/
theorem reaches_of_owners {s : Store} (hs : s.WellFormed) {r : Ref}
    (howned : ∀ i < s.size, r ≠ some i → 0 < s.owners i) (i : Nat) (hi : i < s.size) :
    s.Reaches r i := by
  induction hdistance : s.size - i using Nat.strong_induction_on generalizing i with
  | _ n ih =>
    by_cases hroot : r = some i
    · exact .root hroot
    · obtain ⟨parent, node, hnode, hchild⟩ := owners_pos_iff.mp (howned i hi hroot)
      have hbefore := hs parent node hnode i hchild
      have hparent := lt_size_of_node? hnode
      exact .child (ih (s.size - parent) (by omega) parent hparent rfl) hnode hchild

/-! ### The account of references -/

/-- **Every node that was added is referred to once,** by a slot or by a loose reference. -/
structure Owned (s s' : Store) (loose : List Ref) : Prop where
  grown : s.size ≤ s'.size
  account : ∀ i, loose.count (some i) + s'.owners i =
    s.owners i + if s.size ≤ i ∧ i < s'.size then 1 else 0
  ordered : s.WellFormed → s'.WellFormed

namespace Owned

variable {s s' s'' : Store} {loose loose' rest : List Ref}

theorem nil (s : Store) : Owned s s [] := by
  refine ⟨le_refl _, fun i => ?_, id⟩
  rw [if_neg (by omega), List.count_nil, Nat.zero_add, Nat.add_zero]

/-- What two steps leave without an owner is left without one by both. -/
theorem append (h : Owned s s' loose) (h' : Owned s' s'' loose') :
    Owned s s'' (loose ++ loose') := by
  refine ⟨h.grown.trans h'.grown, fun i => ?_, fun hs => h'.ordered (h.ordered hs)⟩
  have hfirst := h.account i
  have hsecond := h'.account i
  have hgrown := h.grown
  have hgrown' := h'.grown
  rw [List.count_append]
  split_ifs at hfirst hsecond ⊢ <;> omega

/-- A child that is not there is no reference. -/
theorem absent (h : Owned s s' loose) : Owned s s' (none :: loose) := by
  refine ⟨h.grown, fun i => ?_, h.ordered⟩
  rw [List.count_cons_of_ne (by simp)]
  exact h.account i

/-- **Adding a node** takes its children from the loose references, and its own place
becomes one. -/
theorem push (h : Owned s s' loose) {node : Node}
    (hloose : loose.Perm (node.shape.children ++ rest)) :
    Owned s (s'.push node).1 ((s'.push node).2 :: rest) := by
  -- the children stop being loose and are owned by the node, which is loose instead
  have haccount : ∀ i, node.shape.children.count (some i) + rest.count (some i) + s'.owners i =
      s.owners i + if s.size ≤ i ∧ i < s'.size then 1 else 0 := by
    intro i
    rw [← List.count_append, ← hloose.count_eq]
    exact h.account i
  refine ⟨?_, fun i => ?_, fun hs => ?_⟩
  · rw [size_push]
    exact h.grown.trans (Nat.le_succ _)
  · have hi := haccount i
    have hgrown := h.grown
    change (some s'.size :: rest).count (some i) + _ = _
    rw [List.count_cons, owners_push, size_push]
    simp only [beq_iff_eq, Option.some.injEq]
    split_ifs at hi ⊢ <;> omega
  · -- a child is loose, so it was there before or has been added
    refine wellFormed_push (h.ordered hs) fun j hj => ?_
    have hj := List.count_pos_iff.mpr hj
    have hloose := haccount j
    have hgrown := h.grown
    by_cases hadded : s.size ≤ j ∧ j < s'.size
    · exact hadded.2
    · rw [if_neg hadded] at hloose
      exact (lt_size_of_owners hs (by omega)).trans_le hgrown

/-- A leaf owns nothing and is left without an owner. -/
theorem leaf (s : Store) {node : Node} (hchildren : node.shape.children = []) :
    Owned s (s.push node).1 [(s.push node).2] :=
  (nil s).push (by rw [hchildren, List.append_nil])

/-- A node on top of all that is loose. -/
theorem onTop (h : Owned s s' loose) {node : Node} (hchildren : node.shape.children.Perm loose) :
    Owned s (s'.push node).1 [(s'.push node).2] :=
  h.push (by rw [List.append_nil]; exact hchildren.symm)

/-- **The root alone is loose:** then the store is one tree. -/
theorem isOneTree {r : Ref} (h : Owned empty s [r]) (hr : r ≠ none) : s.IsOneTree r := by
  have hempty : empty.WellFormed :=
    fun i node hi => absurd (lt_size_of_node? hi) (Nat.not_lt_zero i)
  have hordered := h.ordered hempty
  -- from an empty store every node that was added is owned once, or is the one that is loose
  have haccount : ∀ i,
      (if r = some i then 1 else 0) + s.owners i = if i < s.size then 1 else 0 := by
    intro i
    have hi := h.account i
    simp only [List.count_singleton, beq_iff_eq] at hi
    rw [hi, show empty.owners i = 0 from rfl, Nat.zero_add]
    exact if_congr (and_iff_right (Nat.zero_le i)) rfl rfl
  obtain ⟨root, rfl⟩ := Option.ne_none_iff_exists'.mp hr
  have hroot := haccount root
  rw [if_pos rfl] at hroot
  have howned : ∀ i < s.size, some root ≠ some i → s.owners i = 1 := by
    intro i hi hne
    have hcount := haccount i
    rwa [if_neg hne, if_pos hi, Nat.zero_add] at hcount
  have hreached := reaches_of_owners hordered fun i hi hne => (howned i hi hne).symm ▸ Nat.one_pos
  refine ⟨⟨root, ?_, rfl, ?_⟩, hordered, hreached, howned⟩
  · -- what is loose has been added
    by_contra hlt
    rw [if_neg hlt] at hroot
    omega
  · split_ifs at hroot <;> omega

end Owned

/-! ### Placing -/

/-- Each tree is placed with a reference. -/
theorem length_placeAll (t : Treatment) (es : List Expr) (s : Store) :
    (placeAll t es s).2.length = es.length := by
  induction es generalizing s with
  | nil => rfl
  | cons e es ih => rw [placeAll, List.length_cons, ih, List.length_cons]

/-- What is measured is still what was given. -/
theorem map_item_measure {es : List Expr} {rs : List Ref} (hlength : rs.length = es.length) :
    (Operand.measure es rs).map (·.item) = rs := by
  rw [Operand.measure, List.map_zipWith]
  induction rs generalizing es with
  | nil => exact List.zipWith_nil_right
  | cons r rs ih =>
    obtain ⟨e, es, rfl⟩ := List.exists_cons_of_length_eq_add_one hlength.symm
    rw [List.zipWith_cons_cons, ih (Nat.succ.inj hlength)]

/-- Arranged or not, an infix node has its operands as children. -/
theorem children_joined (t : Treatment) {kept : Shape} {rs : List Ref} (hkept : kept.children = rs)
    (op : BinaryOp) {es : List Expr} (hlength : rs.length = es.length) :
    (t.joined kept op (Operand.measure es rs)).children.Perm rs := by
  cases t with
  | keep => exact .of_eq hkept
  | within policy range => exact .of_eq hkept
  | canonical policy =>
    have harranged := (arrange_perm policy op (Operand.measure es rs)).map (·.item)
    rw [map_item_measure hlength] at harranged
    rw [Treatment.joined, children_join]
    exact harranged

/-- **Trees that are placed one by one** leave their roots without owners, and nothing else. -/
theorem owned_placeAll (t : Treatment) {es : List Expr}
    (h : ∀ e ∈ es, ∀ s, Owned s (place t e s).1 [(place t e s).2]) (s : Store) :
    Owned s (placeAll t es s).1 (placeAll t es s).2 := by
  induction es generalizing s with
  | nil => exact .nil s
  | cons e es ih =>
    obtain ⟨he, hes⟩ := List.forall_mem_cons.mp h
    exact (he s).append (ih hes _)

/-- **What is placed is owned,** and its root is loose. -/
theorem owned_place (e : Expr) :
    ∀ (t : Treatment) (s : Store), Owned s (place t e s).1 [(place t e s).2] := by
  induction e using Expr.induct with
  | absent => exact fun t s => (Owned.nil s).absent
  | error span => exact fun t s => .leaf s rfl
  | literal span kind text => exact fun t s => .leaf s rfl
  | ident span name => exact fun t s => .leaf s rfl
  | call span receiver name args hreceiver hargs =>
    exact fun t s => ((hreceiver t s).append (owned_placeAll t (fun e he => hargs e he t) _)).onTop
      (.refl _)
  | field span receiver name hreceiver => exact fun t s => (hreceiver t s).onTop (.refl _)
  | unary span op operand hoperand => exact fun t s => (hoperand t s).onTop (.refl _)
  | paren span inner hinner => exact fun t s => (hinner t s).onTop (.refl _)
  | binary span op left right hleft hright =>
    intro t s
    -- arranging operands permutes references, so the same ones are loose
    set inside := t.enter (.binary span op left right) with hinside
    have hlength : [(place inside left s).2,
        (place inside right (place inside left s).1).2].length = [left, right].length := rfl
    exact ((hleft inside s).append (hright inside _)).onTop
      (children_joined inside (Eq.refl (Shape.binary op _ _).children) op hlength)
  | chain span op operands hoperands =>
    intro t s
    set inside := t.enter (.chain span op operands) with hinside
    have hall := owned_placeAll inside (fun e he => hoperands e he inside) s
    have hlength := length_placeAll inside operands s
    exact hall.onTop (children_joined inside (Eq.refl (Shape.chain op _).children) op hlength)
  | conditional span cond yes no hcond hyes hno =>
    exact fun t s => (((hcond t s).append (hyes t _)).append (hno t _)).onTop (.refl _)

/-! ### Laying out -/

/-- The references that a node in hand holds. -/
def pending : Option Node → List Ref
  | none => []
  | some node => node.shape.children

/-- A node that was held back is left without an owner once it is added. -/
theorem Owned.release {s s' : Store} {held : Option Node} {rest : List Ref}
    (h : Owned s s' (pending held ++ rest)) :
    Owned s (release (s', held)).1 ((release (s', held)).2 :: rest) := by
  cases held with
  | none => exact h.absent
  | some node => exact h.push (.refl _)

/-- What is laid out is owned, and the node that is held back holds the loose references. -/
def LaysOwned (e : Expr) : Prop := ∀ s, Owned s (lay e s).1 (pending (lay e s).2)

/-- A tree that has been laid out leaves its root without an owner. -/
theorem LaysOwned.released {e : Expr} (h : LaysOwned e) (s : Store) :
    Owned s (release (lay e s)).1 [(release (lay e s)).2] :=
  Owned.release (by rw [List.append_nil]; exact h s)

/-- Trees that are laid out one by one leave their roots without owners. -/
theorem owned_layAll {es : List Expr} (h : ∀ e ∈ es, LaysOwned e) (s : Store) :
    Owned s (layAll es s).1 (layAll es s).2 := by
  induction es generalizing s with
  | nil => exact .nil s
  | cons e es ih =>
    obtain ⟨he, hes⟩ := List.forall_mem_cons.mp h
    exact (he.released s).append (ih hes _)

/-- Two trees of which the first may be held back leave their roots without owners. -/
theorem owned_layPair {a b : Expr} (ha : LaysOwned a) (hb : LaysOwned b) (held : Bool) (s : Store) :
    Owned s (layPair held (lay a) (lay b) s).1
      [(layPair held (lay a) (lay b) s).2.1, (layPair held (lay a) (lay b) s).2.2] := by
  cases held with
  | false => exact (ha.released s).append (hb.released _)
  | true => exact ((ha s).append (hb.released _)).release

/-- **Laying out a tree gives each node one owner,** except for its root. One case for each shape;
the node that is added last owns what the parts have left without an owner. -/
theorem laysOwned (e : Expr) : LaysOwned e := by
  induction e using Expr.induct with
  | absent => exact fun s => .nil s
  | error span => exact fun s => .nil s
  | literal span kind text => exact fun s => .nil s
  | ident span name => exact fun s => .nil s
  | call span receiver name args hreceiver hargs =>
    exact fun s => (hreceiver.released s).append (owned_layAll hargs _)
  | field span receiver name hreceiver => exact fun s => hreceiver.released s
  | unary span op operand hoperand => exact fun s => hoperand.released s
  | paren span inner hinner => exact fun s => hinner.released s
  | binary span op left right hleft hright =>
    exact fun s => owned_layPair hleft hright (closedBy op left) s
  | chain span op operands hoperands =>
    intro s
    -- a run that the operator closes is added behind the second operand, and owned all the same
    rcases operands with _ | ⟨first, _ | ⟨second, others⟩⟩
    · exact owned_layAll hoperands s
    · exact owned_layAll hoperands s
    · obtain ⟨hfirst, hlater⟩ := List.forall_mem_cons.mp hoperands
      obtain ⟨hsecond, hothers⟩ := List.forall_mem_cons.mp hlater
      exact (owned_layPair hfirst hsecond (closedBy op first) s).append (owned_layAll hothers _)
  | conditional span cond yes no hcond hyes hno =>
    exact fun s => ((hcond.released s).append (hyes.released _)).append (hno.released _)

/-! ### The stores that are made -/

/-- **A store without short chains:** every chain has three operands or more. -/
def LongChains (s : Store) : Prop :=
  ∀ i span op operands, s.node? i = some ⟨span, .chain op operands⟩ → 3 ≤ operands.length

/-- In the store of a filled tree every node is one of the tree, and the chains of the tree
are long. -/
theorem IsOneTree.longChains {s : Store} {r : Ref} {e : Expr} (h : s.IsOneTree r)
    (he : s.tree? r = some e) (hfilled : e.Filled) : s.LongChains := by
  intro i span op operands hnode
  obtain ⟨n, x, hx, hnodeOf⟩ := (h.reached i (lt_size_of_node? hnode)).exists_hasNode he
  obtain ⟨m, node, es, -, hnode', hes, hbuilds⟩ := exists_node_of_treeWithin hx
  obtain rfl : ⟨span, .chain op operands⟩ = node := Option.some.inj (hnode.symm.trans hnode')
  -- the node denotes a chain of as many operands
  have hlength : operands.length = es.length := by
    simpa [Shape.children] using congrArg List.length ((mapM_eq_some_iff _ _ _).mp hes)
  cases hbuilds with
  | chain =>
    cases hfilled.node hnodeOf with
    | chain _ _ hlong _ => exact hlength ▸ hlong

/-- A tree that is there has a root. -/
theorem ne_none_of_tree? {s : Store} {r : Ref} {e : Expr} (h : s.tree? r = some e)
    (he : e ≠ .absent) : r ≠ none := by
  rintro rfl
  rw [tree?, treeWithin_none] at h
  exact he (Option.some.inj h).symm

/-- A tree that is there has a root. -/
theorem root_place (t : Treatment) {e : Expr} (he : e ≠ .absent) (s : Store) :
    (place t e s).2 ≠ none := by
  cases e with
  | absent => exact absurd rfl he
  | _ => simp [place, push]

/-- A tree that is laid out in an empty store is all there is. -/
theorem isOneTree_ofParsed {e : Expr} (he : e ≠ .absent) :
    (ofParsed e).1.IsOneTree (ofParsed e).2 :=
  ((laysOwned e).released empty).isOneTree (ne_none_of_tree? (tree?_ofParsed e) he)

/-- A tree that is placed in an empty store is all there is. -/
theorem isOneTree_place (t : Treatment) {e : Expr} (he : e ≠ .absent) :
    (place t e empty).1.IsOneTree (place t e empty).2 :=
  (owned_place e t empty).isOneTree (root_place t he empty)

end Store

end OperandOrder
