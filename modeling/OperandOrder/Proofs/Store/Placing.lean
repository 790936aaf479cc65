import OperandOrder.Proofs.Canonical
import OperandOrder.Proofs.Store.Reading
import OperandOrder.Store.Place

/-!
# Placing a tree only adds to a store

`Store.place` adds nodes at the end and reads none of those that were there. What it places denotes
the tree that it was given, treated as asked: `Store.placed_place` says so together with what is
needed to go on, namely that nothing placed before has changed and how many nodes there are now.

The operands of an infix node are arranged as references here and as trees in `Expr.canonical`.
Since arranging looks at profiles only (`arrange_map`), reading the references afterwards gives the
trees in their new order (`Store.map_read_arrange`).
-/

namespace OperandOrder

/-- **What a treatment makes of a tree.** -/
def Treatment.result : Treatment → Expr → Expr
  | .keep, e => e
  | .within policy range, e => (e.reorderWithin policy range).expr
  | .canonical policy, e => (e.canonical policy).expr

namespace Store

/-! ### Adding nodes -/

/-- **Growth:** every node is still where it was. -/
def Extends (s s' : Store) : Prop :=
  ∀ i node, s.node? i = some node → s'.node? i = some node

theorem Extends.refl (s : Store) : s.Extends s := fun _ _ h => h

/-- One extension after another. -/
theorem Extends.trans {s s' s'' : Store} (h : s.Extends s') (h' : s'.Extends s'') :
    s.Extends s'' :=
  fun i node hi => h' i node (h i node hi)

/-- A new node leaves all others where they are. -/
theorem extends_push (s : Store) (node : Node) : s.Extends (s.push node).1 := by
  intro i old h
  have hi : i < s.nodes.size := lt_size_of_node? h
  change (s.nodes.push node)[i]? = some old
  rw [Array.getElem?_push_lt hi, ← h]
  exact (Array.getElem?_eq_getElem hi).symm

@[simp] theorem size_push (s : Store) (node : Node) : (s.push node).1.size = s.size + 1 :=
  Array.size_push node

/-- A new node is found at the next place. -/
theorem node?_push (s : Store) (node : Node) : (s.push node).1.node? s.size = some node :=
  Array.getElem?_push_size

/-- What has been placed: the store has grown by the nodes of the given tree, and however it grows
further, the reference denotes `result`. -/
structure Placed (given result : Expr) (s s' : Store) (r : Ref) : Prop where
  grown : s.Extends s'
  size : s'.size = s.size + given.size
  reads : ∀ s'', s'.Extends s'' → ∀ n, given.size ≤ n → s''.treeWithin n r = some result

/-- The same for several trees. -/
structure PlacedAll (given results : List Expr) (s s' : Store) (rs : List Ref) : Prop where
  grown : s.Extends s'
  size : s'.size = s.size + Expr.sizes given
  reads : ∀ s'', s'.Extends s'' → ∀ n, Expr.sizes given ≤ n →
    rs.map (s''.treeWithin n) = results.map some

theorem placedAll_nil (s : Store) : PlacedAll [] [] s s [] :=
  ⟨Extends.refl s, rfl, fun _ _ _ _ => rfl⟩

/-- One more tree in front of others: what it placed is still there when the others have
been placed. -/
theorem Placed.cons {given result : Expr} {givens results : List Expr} {s s' s'' : Store} {r : Ref}
    {rs : List Ref} (h : Placed given result s s' r) (h' : PlacedAll givens results s' s'' rs) :
    PlacedAll (given :: givens) (result :: results) s s'' (r :: rs) := by
  refine ⟨h.grown.trans h'.grown, ?_, fun t ht n hn => ?_⟩
  · rw [h'.size, h.size, Expr.sizes, add_assoc]
  · rw [Expr.sizes] at hn
    rw [List.map_cons, List.map_cons, h.reads t (h'.grown.trans ht) n (by omega),
      h'.reads t ht n (by omega)]

/-! ### Nodes that are held back

The root of a tree need not be added right after its children. Until then it is *held back*, and
what is below it stays what it is however the store grows meanwhile. A tree whose root is added at
once is the case in which nothing comes in between. -/

/-- **What has been laid out:** the store has grown by all nodes of the given tree but the one held
back, and when that one is added to a later store, it denotes `result`. -/
structure Laid (given result : Expr) (s s' : Store) (held : Option Node) : Prop where
  grown : s.Extends s'
  size : s'.size + held.toList.length = s.size + given.size
  reads : ∀ t, s'.Extends t → ∀ t', (release (t, held)).1.Extends t' → ∀ n, given.size ≤ n →
    t'.treeWithin n (release (t, held)).2 = some result

/-- Adding a node that was held back leaves all others where they are. -/
theorem extends_release (s : Store) (held : Option Node) : s.Extends (release (s, held)).1 := by
  cases held with
  | none => exact Extends.refl s
  | some node => exact extends_push s node

/-- A node that was held back takes one place. -/
theorem size_release (s : Store) (held : Option Node) :
    (release (s, held)).1.size = s.size + held.toList.length := by
  cases held with
  | none => rfl
  | some node => exact size_push s node

/-- A tree of which nothing is held back any more is placed. -/
theorem Laid.placed {given result : Expr} {s s' : Store} {held : Option Node}
    (h : Laid given result s s' held) :
    Placed given result s (release (s', held)).1 (release (s', held)).2 :=
  ⟨h.grown.trans (extends_release s' held), (size_release s' held).trans h.size,
    h.reads s' (Extends.refl s')⟩

/-- **A node that is held back on top of its children.** One step of reading is for the node, the
others are for what is below it. -/
theorem laid_node {given result : Expr} {s s' : Store} {span : Span} {shape : Shape} {m : Nat}
    (hgrown : s.Extends s') (hsize : s'.size = s.size + m) (hgiven : given.size = 1 + m)
    (hreads : ∀ t, s'.Extends t → ∀ n, m ≤ n → ∃ es,
      shape.children.map (t.treeWithin n) = es.map some ∧ shape.Builds span es result) :
    Laid given result s s' (some ⟨span, shape⟩) := by
  refine ⟨hgrown, ?_, fun t ht t' ht' n hn => ?_⟩
  · simp only [Option.toList_some, List.length_singleton]
    omega
  · obtain ⟨n, rfl⟩ : ∃ k, n = k + 1 := ⟨n - 1, by omega⟩
    obtain ⟨es, hes, hbuilds⟩ := hreads t' (ht.trans ((extends_push t _).trans ht')) n (by omega)
    exact treeWithin_succ_eq_some_iff.mpr ⟨_, es, ht' _ _ (node?_push t _),
      (mapM_eq_some_iff _ _ _).mpr hes, hbuilds⟩

/-- A leaf is laid out as one node, which is held back. -/
theorem laid_leaf {e : Expr} {s : Store} {span : Span} {shape : Shape} (hsize : e.size = 1)
    (hchildren : shape.children = []) (hbuilds : shape.Builds span [] e) :
    Laid e e s s (some ⟨span, shape⟩) :=
  laid_node (Extends.refl s) (Nat.add_zero s.size).symm hsize fun _ _ _ _ =>
    ⟨[], by rw [hchildren]; rfl, hbuilds⟩

/-- A node on top of several children. -/
theorem laid_over {given result : Expr} {givens results : List Expr} {s s' : Store} {span : Span}
    {shape : Shape} {rs : List Ref} (hchildren : PlacedAll givens results s s' rs)
    (hsize : given.size = 1 + Expr.sizes givens) (hrs : shape.children = rs)
    (hbuilds : shape.Builds span results result) : Laid given result s s' (some ⟨span, shape⟩) := by
  refine laid_node hchildren.grown hchildren.size hsize fun t ht n hn => ⟨results, ?_, hbuilds⟩
  rw [hrs]
  exact hchildren.reads t ht n hn

/-- A node with one child. -/
theorem laid_above {given result child inner : Expr} {s s' : Store} {span : Span} {shape : Shape}
    {r : Ref} (hchild : Placed child inner s s' r) (hsize : given.size = 1 + child.size)
    (hchildren : shape.children = [r]) (hbuilds : shape.Builds span [inner] result) :
    Laid given result s s' (some ⟨span, shape⟩) :=
  laid_over (hchild.cons (placedAll_nil s')) hsize hchildren hbuilds

/-! ### Arranged references -/

/-- An operand that carries something else. -/
def carry {α β : Type} (g : α → β) (x : Operand α) : Operand β := ⟨x.profile, g x.item⟩

/-- **Reading arranged references gives the arranged trees.** -/
theorem map_read_arrange (policy : Policy) (op : BinaryOp) (es : List Expr) (rs : List Ref)
    (read : Ref → Option Expr)
    (h : rs.map read = es.map fun e => some (e.canonical policy).expr) :
    (arrange policy op (Operand.measure es rs)).op = (Expr.arrangement policy op es).op ∧
      ((arrange policy op (Operand.measure es rs)).operands.map (·.item)).map read =
        ((Expr.arrangement policy op es).operands.map (·.item.expr)).map some := by
  -- both arrangements are made of operands with the profiles of `es`, so both are seen as one
  -- arrangement of the answers
  have hread : (Operand.measure es rs).map (carry read) =
      (es.map (Expr.judged policy)).map (carry fun o => some o.expr) := by
    have hmeasure : (Operand.measure es rs).map (carry read) =
        Operand.measure es (rs.map read) := by
      simp [Operand.measure, List.map_zipWith, carry, List.zipWith_map_right]
    rw [hmeasure, h, Operand.measure_map, List.map_map]
    rfl
  have hleft := arrange_map policy op (carry read) (Operand.measure es rs) fun _ _ => rfl
  have hright := arrange_map policy op (carry fun o : Outcome => some o.expr)
    (es.map (Expr.judged policy)) fun _ _ => rfl
  rw [hread, hright] at hleft
  refine ⟨(congrArg Arrangement.op hleft).symm, ?_⟩
  have hitems := congrArg (fun a => a.operands.map (·.item)) hleft
  simp only [Arrangement.map, List.map_map] at hitems
  rw [List.map_map, List.map_map]
  exact hitems.symm

/-- The children of an infix node are its operands. -/
@[simp] theorem children_join (op : BinaryOp) (rs : List Ref) :
    (Shape.join op rs).children = rs := by
  unfold Shape.join
  split <;> rfl

/-- An infix node is built from its operands, however many they are. -/
theorem builds_join (span : Span) (op : BinaryOp) {rs : List Ref} {es : List Expr}
    (h : rs.length = es.length) : (Shape.join op rs).Builds span es (.join span op es) := by
  match rs, es, h with
  | [], [], _ => exact .chain op [] []
  | [r], [e], _ => exact .chain op [r] [e]
  | [a, b], [left, right], _ => exact .binary op a b left right
  | a :: b :: c :: rs, x :: y :: z :: es, _ =>
    exact .chain op (a :: b :: c :: rs) (x :: y :: z :: es)

/-! ### What a treatment does at one node -/

section Result

variable (t : Treatment)

/-- A call is treated in its receiver and in its arguments. -/
theorem result_call (s : Span) (receiver : Expr) (name : String) (args : List Expr) :
    t.result (.call s receiver name args) =
      .call s (t.result receiver) name (args.map t.result) := by
  cases t with
  | keep => exact congrArg (Expr.call s receiver name) (List.map_id args).symm
  | within policy range =>
    simp [Treatment.result, Expr.reorderWithin, Expr.reorderAllWithin_eq_map, Function.comp_def]
  | canonical policy =>
    simp [Treatment.result, Expr.canonical, Expr.canonicalAll_eq_map, Function.comp_def]

/-- The treatment leaves an infix node alone, and goes on to its operands. -/
def Spares (e : Expr) : Prop :=
  t = .keep ∨ ∃ policy range, t = .within policy range ∧ e.isSelected range = false

/-- An infix node is put in canonical form, or it is left alone. -/
theorem enter_cases (e : Expr) :
    (∃ policy, t.enter e = .canonical policy) ∨ t.enter e = t ∧ Spares t e := by
  cases t with
  | keep => exact .inr ⟨rfl, .inl rfl⟩
  | canonical policy => exact .inl ⟨policy, rfl⟩
  | within policy range =>
    by_cases h : e.isSelected range = true
    · exact .inl ⟨policy, by simp [Treatment.enter, h]⟩
    · have h : e.isSelected range = false := by simpa using h
      exact .inr ⟨by simp [Treatment.enter, h], .inr ⟨policy, range, rfl, h⟩⟩

/-- A node that is spared keeps its shape. -/
theorem joined_of_spares {e : Expr} (h : Spares t e) (kept : Shape) (op : BinaryOp)
    (operands : List (Operand Ref)) : t.joined kept op operands = kept := by
  rcases h with rfl | ⟨policy, range, rfl, -⟩ <;> rfl

/-- A node of two operands that is spared is treated in its operands. -/
theorem result_binary_of_spares {s : Span} {op : BinaryOp} {left right : Expr}
    (h : Spares t (.binary s op left right)) :
    t.result (.binary s op left right) = .binary s op (t.result left) (t.result right) := by
  rcases h with rfl | ⟨policy, range, rfl, hselected⟩
  · rfl
  · rw [Treatment.result, Expr.reorderWithin, if_neg (by simp [hselected])]
    rfl

/-- A chain that is spared is treated in its operands. -/
theorem result_chain_of_spares {s : Span} {op : BinaryOp} {es : List Expr}
    (h : Spares t (.chain s op es)) :
    t.result (.chain s op es) = .chain s op (es.map t.result) := by
  rcases h with rfl | ⟨policy, range, rfl, hselected⟩
  · exact congrArg (Expr.chain s op) (List.map_id es).symm
  · rw [Treatment.result, Expr.reorderWithin, if_neg (by simp [hselected]),
      Expr.reorderAllWithin_eq_map]
    exact congrArg (Expr.chain s op) List.map_map

/-- A node that is put in canonical form: always, or because the range selects it. -/
theorem result_of_enter {e : Expr} {policy : Policy} (h : t.enter e = .canonical policy)
    (hwithin : ∀ range, e.isSelected range = true →
      (e.reorderWithin policy range).expr = (e.canonical policy).expr) :
    t.result e = (e.canonical policy).expr := by
  cases t with
  | keep => exact absurd h (by simp [Treatment.enter])
  | canonical policy' =>
    obtain rfl : policy' = policy := by simpa [Treatment.enter] using h
    rfl
  | within policy' range =>
    simp only [Treatment.enter] at h
    split at h
    next hselected =>
      obtain rfl : policy' = policy := by simpa using h
      exact hwithin range hselected
    next => exact absurd h (by simp)

/-- A node of two operands that is put in canonical form. -/
theorem result_binary_of_canonical {s : Span} {op : BinaryOp} {left right : Expr} {policy : Policy}
    (h : t.enter (.binary s op left right) = .canonical policy) :
    t.result (.binary s op left right) =
      ((Expr.join s op [left, right]).canonical policy).expr := by
  refine result_of_enter t h fun range hselected => ?_
  rw [Expr.reorderWithin, if_pos hselected]

/-- A chain that is put in canonical form. -/
theorem result_chain_of_canonical {s : Span} {op : BinaryOp} {es : List Expr} {policy : Policy}
    (h : t.enter (.chain s op es) = .canonical policy) :
    t.result (.chain s op es) = ((Expr.join s op es).canonical policy).expr := by
  rw [← Expr.canonical_chain]
  refine result_of_enter t h fun range hselected => ?_
  rw [Expr.reorderWithin, if_pos hselected]

end Result

/-! ### Placing -/

/-- Several trees are placed one after the other. -/
theorem placedAll_placeAll (t : Treatment) (es : List Expr)
    (h : ∀ e ∈ es, ∀ s, Placed e (t.result e) s (place t e s).1 (place t e s).2) (s : Store) :
    PlacedAll es (es.map t.result) s (placeAll t es s).1 (placeAll t es s).2 := by
  induction es generalizing s with
  | nil => exact placedAll_nil s
  | cons e es ih =>
    exact (h e (by simp) s).cons (ih (fun x hx => h x (List.mem_cons_of_mem e hx)) (place t e s).1)

/-- **An infix node on top of its operands.** In canonical form it names them in their new order. -/
theorem placed_infix {t : Treatment} {node : Expr} {span : Span} {op : BinaryOp} {es : List Expr}
    {rs : List Ref} {kept : Shape} {s s' : Store}
    (hoperands : PlacedAll es (es.map (t.enter node).result) s s' rs)
    (hsize : node.size = 1 + Expr.sizes es)
    (hcanonical : ∀ policy, t.enter node = .canonical policy →
      t.result node = ((Expr.join span op es).canonical policy).expr)
    (hchildren : kept.children = rs)
    (hkept : Spares t node → kept.Builds span (es.map t.result) (t.result node)) :
    Placed node (t.result node) s
      (s'.push ⟨span, (t.enter node).joined kept op (Operand.measure es rs)⟩).1
      (s'.push ⟨span, (t.enter node).joined kept op (Operand.measure es rs)⟩).2 := by
  refine (laid_node hoperands.grown hoperands.size hsize fun s'' hs'' n hn => ?_).placed
  have hreads := hoperands.reads s'' hs'' n hn
  -- below a node that is put in canonical form everything is
  rcases enter_cases t node with ⟨policy, hpolicy⟩ | ⟨hself, hspares⟩
  · -- the operands are placed in canonical form, and the node names them as they were arranged
    have harranged := map_read_arrange policy op es rs (s''.treeWithin n) (by
      rw [hreads, hpolicy, List.map_map]
      rfl)
    rw [hcanonical policy hpolicy, Expr.canonical_join, hpolicy]
    simp only [Treatment.joined, harranged.1, children_join]
    refine ⟨_, harranged.2, builds_join span _ ?_⟩
    simpa using congrArg List.length harranged.2
  · -- the node is kept as it was, with other references
    rw [hself] at hreads
    rw [hself, joined_of_spares t hspares, hchildren]
    exact ⟨es.map t.result, hreads, hkept hspares⟩

/-- **What is placed denotes the tree it was made of,** treated as asked. -/
theorem placed_place (e : Expr) : ∀ (t : Treatment) (s : Store),
    Placed e (t.result e) s (place t e s).1 (place t e s).2 := by
  induction e using Expr.induct with
  | absent =>
    intro t s
    have hresult : t.result .absent = .absent := by cases t <;> rfl
    rw [hresult]
    exact ⟨Extends.refl s, rfl, fun s'' _ n _ => treeWithin_none s'' n⟩
  | error span =>
    intro t s
    have hresult : t.result (.error span) = .error span := by cases t <;> rfl
    rw [hresult]
    exact (laid_leaf rfl rfl .error).placed
  | literal span kind text =>
    intro t s
    have hresult : t.result (.literal span kind text) = .literal span kind text := by
      cases t <;> rfl
    rw [hresult]
    exact (laid_leaf rfl rfl (.literal kind text)).placed
  | ident span name =>
    intro t s
    have hresult : t.result (.ident span name) = .ident span name := by cases t <;> rfl
    rw [hresult]
    exact (laid_leaf rfl rfl (.ident name)).placed
  -- the children are placed in their order, and then the node, under the treatment of its parent
  | call span receiver name args hreceiver hargs =>
    intro t s
    have hchildren := (hreceiver t s).cons (placedAll_placeAll t args (fun e he => hargs e he t) _)
    rw [result_call]
    exact (laid_over hchildren (by simp only [Expr.size, Expr.sizes, add_assoc]) rfl
      (.call ..)).placed
  | field span receiver name hreceiver =>
    intro t s
    have hresult : t.result (.field span receiver name) = .field span (t.result receiver) name := by
      cases t <;> rfl
    rw [hresult]
    exact (laid_above (hreceiver t s) rfl rfl (.field ..)).placed
  | unary span op operand hoperand =>
    intro t s
    have hresult : t.result (.unary span op operand) = .unary span op (t.result operand) := by
      cases t <;> rfl
    rw [hresult]
    exact (laid_above (hoperand t s) rfl rfl (.unary ..)).placed
  | paren span inner hinner =>
    intro t s
    have hresult : t.result (.paren span inner) = .paren span (t.result inner) := by
      cases t <;> rfl
    rw [hresult]
    exact (laid_above (hinner t s) rfl rfl (.paren ..)).placed
  -- infix nodes choose the treatment of what is below them
  | binary span op left right hleft hright =>
    intro t s
    have hoperands := placedAll_placeAll (t.enter (.binary span op left right)) [left, right]
      (Expr.forall_mem_pair (hleft _) (hright _)) s
    exact placed_infix hoperands (by simp [Expr.size, Expr.sizes, add_assoc])
      (fun _ => result_binary_of_canonical t) rfl fun h => by
        rw [result_binary_of_spares t h]
        exact .binary ..
  | chain span op operands hoperands =>
    intro t s
    have hall := placedAll_placeAll (t.enter (.chain span op operands)) operands
      (fun e he => hoperands e he _) s
    exact placed_infix hall rfl (fun _ => result_chain_of_canonical t) rfl fun h => by
      rw [result_chain_of_spares t h]
      exact .chain ..
  | conditional span cond yes no hcond hyes hno =>
    intro t s
    have hchildren := (hcond t s).cons ((hyes t _).cons ((hno t _).cons (placedAll_nil _)))
    have hresult : t.result (.conditional span cond yes no) =
        .conditional span (t.result cond) (t.result yes) (t.result no) := by
      cases t <;> rfl
    rw [hresult]
    exact (laid_over hchildren (by simp only [Expr.size, Expr.sizes]; omega) rfl
      (.conditional ..)).placed

/-- The same, read with the fuel that the grown store has. -/
theorem tree?_place (t : Treatment) (e : Expr) (s : Store) :
    (place t e s).1.tree? (place t e s).2 = some (t.result e) := by
  have h := placed_place e t s
  exact h.reads _ (Extends.refl _) _ (by rw [h.size]; omega)

end Store

end OperandOrder
