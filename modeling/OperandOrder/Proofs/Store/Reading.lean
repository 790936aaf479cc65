import Mathlib.Tactic.Common
import OperandOrder.Proofs.Trees
import OperandOrder.Store

/-!
# Reading stores

In a **well-formed** store every child stands before its parent. Then every reference into the store
denotes a tree (`Store.exists_tree?`), although nodes may be shared and nothing says that they are
all reached.

`Store.tree?` reads with as much fuel as there are nodes. More fuel does not change an answer
(`Store.treeWithin_mono`), so statements about it can be made for any amount that is enough.

`Store.sameTree?_eq` says that the comparison of two stored trees is the equality of the trees that
are read from the two references.
-/

namespace OperandOrder

/-- Every member has an answer exactly when the answers are those of a list. -/
theorem mapM_eq_some_iff {α β : Type} (f : α → Option β) (xs : List α) (ys : List β) :
    xs.mapM f = some ys ↔ xs.map f = ys.map some := by
  induction xs generalizing ys with
  | nil => cases ys <;> simp
  | cons x xs ih =>
    rw [List.mapM_cons, List.map_cons]
    cases hx : f x with
    | none => cases ys <;> simp
    | some y =>
      cases ys with
      | nil => cases hxs : xs.mapM f <;> simp
      | cons z zs =>
        rw [List.map_cons, List.cons.injEq, Option.some.injEq, ← ih zs]
        cases hxs : xs.mapM f <;> simp

/-- The answers carry over to any function that gives at least these. -/
theorem mapM_eq_some_mono {α β : Type} {f g : α → Option β} {xs : List α} {ys : List β}
    (hfg : ∀ x ∈ xs, ∀ y, f x = some y → g x = some y) (h : xs.mapM f = some ys) :
    xs.mapM g = some ys := by
  rw [mapM_eq_some_iff] at h ⊢
  induction xs generalizing ys with
  | nil => exact h
  | cons x xs ih =>
    cases ys with
    | nil => exact absurd h (by simp)
    | cons y ys =>
      rw [List.map_cons, List.map_cons, List.cons.injEq] at h ⊢
      exact ⟨hfg x (by simp) y h.1, ih (fun z hz => hfg z (List.mem_cons_of_mem x hz)) h.2⟩

/-- If every member has an answer, so has the list. -/
theorem exists_mapM_eq_some {α β : Type} {f : α → Option β} {xs : List α}
    (h : ∀ x ∈ xs, ∃ y, f x = some y) : ∃ ys, xs.mapM f = some ys ∧ ys.length = xs.length := by
  induction xs with
  | nil => exact ⟨[], rfl, rfl⟩
  | cons x xs ih =>
    obtain ⟨y, hy⟩ := h x (by simp)
    obtain ⟨ys, hys, hlength⟩ := ih fun z hz => h z (List.mem_cons_of_mem x hz)
    refine ⟨y :: ys, ?_, by simp [hlength]⟩
    rw [List.mapM_cons, hy, hys]
    rfl

/-! ### A node and its children -/

/-- **The tree of a node** of which the trees of all children are known, in their order. -/
inductive Shape.Builds (span : Span) : Shape → List Expr → Expr → Prop where
  | error : Builds span .error [] (.error span)
  | literal (kind : LiteralKind) (text : String) :
      Builds span (.literal kind text) [] (.literal span kind text)
  | ident (name : String) : Builds span (.ident name) [] (.ident span name)
  | call (a : Ref) (name : String) (as : List Ref) (receiver : Expr) (args : List Expr) :
      Builds span (.call a name as) (receiver :: args) (.call span receiver name args)
  | field (a : Ref) (name : String) (receiver : Expr) :
      Builds span (.field a name) [receiver] (.field span receiver name)
  | unary (op : UnaryOp) (a : Ref) (operand : Expr) :
      Builds span (.unary op a) [operand] (.unary span op operand)
  | paren (a : Ref) (inner : Expr) : Builds span (.paren a) [inner] (.paren span inner)
  | binary (op : BinaryOp) (a b : Ref) (left right : Expr) :
      Builds span (.binary op a b) [left, right] (.binary span op left right)
  | chain (op : BinaryOp) (as : List Ref) (operands : List Expr) :
      Builds span (.chain op as) operands (.chain span op operands)
  | conditional (a b c : Ref) (cond yes no : Expr) :
      Builds span (.conditional a b c) [cond, yes, no] (.conditional span cond yes no)

namespace Shape

/-- There is a tree for any trees of the children. -/
theorem exists_builds (span : Span) (shape : Shape) (es : List Expr)
    (h : es.length = shape.children.length) : ∃ e, shape.Builds span es e := by
  -- there is a tree for every shape, if there are as many children as the shape has references
  cases shape with
  | error =>
    obtain rfl := List.length_eq_zero_iff.mp h
    exact ⟨_, .error⟩
  | literal kind text =>
    obtain rfl := List.length_eq_zero_iff.mp h
    exact ⟨_, .literal kind text⟩
  | ident name =>
    obtain rfl := List.length_eq_zero_iff.mp h
    exact ⟨_, .ident name⟩
  | call a name as =>
    obtain ⟨receiver, args, rfl⟩ := List.exists_cons_of_length_eq_add_one h
    exact ⟨_, .call a name as receiver args⟩
  | field a name =>
    obtain ⟨receiver, rfl⟩ := List.length_eq_one_iff.mp h
    exact ⟨_, .field a name receiver⟩
  | unary op a =>
    obtain ⟨operand, rfl⟩ := List.length_eq_one_iff.mp h
    exact ⟨_, .unary op a operand⟩
  | paren a =>
    obtain ⟨inner, rfl⟩ := List.length_eq_one_iff.mp h
    exact ⟨_, .paren a inner⟩
  | binary op a b =>
    obtain ⟨left, right, rfl⟩ := List.length_eq_two.mp h
    exact ⟨_, .binary op a b left right⟩
  | chain op as => exact ⟨_, .chain op as es⟩
  | conditional a b c =>
    obtain ⟨cond, yes, no, rfl⟩ := List.length_eq_three.mp h
    exact ⟨_, .conditional a b c cond yes no⟩

end Shape

namespace Store

/-- **A well-formed store:** a child is absent or stands before its parent. -/
def WellFormed (s : Store) : Prop :=
  ∀ i node, s.node? i = some node → ∀ j, some j ∈ node.shape.children → j < i

/-- A reference into the store: absent, or the place of a node. -/
def Holds (s : Store) (r : Ref) : Prop :=
  ∀ i, r = some i → i < s.size

theorem lt_size_of_node? {s : Store} {i : Nat} {node : Node} (h : s.node? i = some node) :
    i < s.size := by
  obtain ⟨hi, -⟩ := Array.getElem?_eq_some_iff.mp h
  exact hi

/-- The check behind `WellFormed`, node by node. -/
theorem wellFormed_iff (s : Store) : s.WellFormed ↔
    ((List.range s.size).all fun i => (s.node? i).all fun node =>
      node.shape.children.all fun child => child.all (· < i)) = true := by
  simp only [List.all_eq_true, List.mem_range, Option.all_eq_true_iff_get, decide_eq_true_eq]
  constructor
  · intro h i _ hnode child hchild hsome
    refine h i _ (Option.some_get hnode).symm _ ?_
    rwa [Option.some_get]
  · intro h i node hi j hj
    have hnode : (s.node? i).isSome = true := by rw [hi]; rfl
    obtain rfl : (s.node? i).get hnode = node := Option.get_of_eq_some hnode hi
    exact h i (lt_size_of_node? hi) hnode (some j) hj rfl

instance (s : Store) : Decidable s.WellFormed := decidable_of_iff' _ s.wellFormed_iff

instance (s : Store) (r : Ref) : Decidable (s.Holds r) :=
  decidable_of_iff (r.all (· < s.size) = true) (by cases r <;> simp [Holds])

theorem exists_node? {s : Store} {i : Nat} (h : i < s.size) : ∃ node, s.node? i = some node :=
  ⟨s.nodes[i], Array.getElem?_eq_getElem h⟩

@[simp] theorem treeWithin_none (s : Store) (n : Nat) : s.treeWithin n none = some .absent := by
  cases n <;> rfl

@[simp] theorem treeWithin_zero (s : Store) (i : Nat) : s.treeWithin 0 (some i) = none := rfl

/-- **Reading a node is reading its children.** -/
theorem treeWithin_succ_eq_some_iff {s : Store} {n i : Nat} {e : Expr} :
    s.treeWithin (n + 1) (some i) = some e ↔
      ∃ node es, s.node? i = some node ∧ node.shape.children.mapM (s.treeWithin n) = some es ∧
        node.shape.Builds node.span es e := by
  simp only [treeWithin, Option.bind_eq_bind, Option.bind_eq_some_iff]
  constructor
  · rintro ⟨⟨span, shape⟩, hnode, h⟩
    refine ⟨⟨span, shape⟩, ?_⟩
    simp only [hnode, true_and, mapM_eq_some_iff]
    cases shape with
    | error => exact ⟨[], rfl, by cases h; exact .error⟩
    | literal kind text => exact ⟨[], rfl, by cases h; exact .literal kind text⟩
    | ident name => exact ⟨[], rfl, by cases h; exact .ident name⟩
    | call a name as =>
      simp only [Option.bind_eq_some_iff, Option.some.injEq] at h
      obtain ⟨receiver, ha, args, has, rfl⟩ := h
      rw [mapM_eq_some_iff] at has
      exact ⟨receiver :: args, by simp [Shape.children, ha, has], .call a name as receiver args⟩
    | field a name =>
      simp only [Option.bind_eq_some_iff, Option.some.injEq] at h
      obtain ⟨receiver, ha, rfl⟩ := h
      exact ⟨[receiver], by simp [Shape.children, ha], .field a name receiver⟩
    | unary op a =>
      simp only [Option.bind_eq_some_iff, Option.some.injEq] at h
      obtain ⟨operand, ha, rfl⟩ := h
      exact ⟨[operand], by simp [Shape.children, ha], .unary op a operand⟩
    | paren a =>
      simp only [Option.bind_eq_some_iff, Option.some.injEq] at h
      obtain ⟨inner, ha, rfl⟩ := h
      exact ⟨[inner], by simp [Shape.children, ha], .paren a inner⟩
    | binary op a b =>
      simp only [Option.bind_eq_some_iff, Option.some.injEq] at h
      obtain ⟨left, ha, right, hb, rfl⟩ := h
      exact ⟨[left, right], by simp [Shape.children, ha, hb], .binary op a b left right⟩
    | chain op as =>
      simp only [Option.bind_eq_some_iff, Option.some.injEq] at h
      obtain ⟨operands, has, rfl⟩ := h
      rw [mapM_eq_some_iff] at has
      exact ⟨operands, has, .chain op as operands⟩
    | conditional a b c =>
      simp only [Option.bind_eq_some_iff, Option.some.injEq] at h
      obtain ⟨cond, ha, yes, hb, no, hc, rfl⟩ := h
      exact ⟨[cond, yes, no], by simp [Shape.children, ha, hb, hc],
        .conditional a b c cond yes no⟩
  · rintro ⟨⟨span, shape⟩, es, hnode, hes, hbuilds⟩
    refine ⟨⟨span, shape⟩, hnode, ?_⟩
    rw [mapM_eq_some_iff] at hes
    -- the trees of the children are known, so each read of a child can be replaced by its answer
    cases hbuilds <;> simp_all [Shape.children, ← mapM_eq_some_iff]

/-- Where a tree is read, there is a node. -/
theorem exists_node_of_treeWithin {s : Store} {n i : Nat} {e : Expr}
    (h : s.treeWithin n (some i) = some e) :
    ∃ m node es, n = m + 1 ∧ s.node? i = some node ∧
      node.shape.children.mapM (s.treeWithin m) = some es ∧ node.shape.Builds node.span es e := by
  cases n with
  | zero => exact absurd h (by simp)
  | succ n =>
    obtain ⟨node, es, hnode, hes, hbuilds⟩ := treeWithin_succ_eq_some_iff.mp h
    exact ⟨n, node, es, rfl, hnode, hes, hbuilds⟩

/-- **Induction on what is read:** an absent reference, or a node over what is read below it. -/
theorem reading_induct {s : Store} {motive : ∀ n r e, s.treeWithin n r = some e → Prop}
    (absent : ∀ n, motive n none .absent (s.treeWithin_none n))
    (node : ∀ n i node es e (hnode : s.node? i = some node)
      (hes : node.shape.children.mapM (s.treeWithin n) = some es)
    (hbuilds : node.shape.Builds node.span es e), (∀ r e he, motive n r e he) →
        motive (n + 1) (some i) e (treeWithin_succ_eq_some_iff.mpr ⟨node, es, hnode, hes, hbuilds⟩))
    (n : Nat) (r : Ref) (e : Expr) (h : s.treeWithin n r = some e) : motive n r e h := by
  -- the depth goes down with every node; a reference that is missing reads at any depth
  induction n generalizing r e with
  | zero =>
    cases r with
    | none =>
      obtain rfl := Option.some.inj h
      exact absent 0
    | some i => exact absurd h (by simp)
  | succ n ih =>
    cases r with
    | none =>
      obtain rfl := Option.some.inj h
      exact absent (n + 1)
    | some i =>
      obtain ⟨x, es, hnode, hes, hbuilds⟩ := treeWithin_succ_eq_some_iff.mp h
      exact node n i x es e hnode hes hbuilds ih

/-- **More fuel does not change an answer.** -/
theorem treeWithin_mono {s : Store} {n m : Nat} (hnm : n ≤ m) {r : Ref} {e : Expr}
    (h : s.treeWithin n r = some e) : s.treeWithin m r = some e := by
  induction n, r, e, h using reading_induct generalizing m with
  | absent n => exact s.treeWithin_none m
  | node n i node es e hnode hes hbuilds ih =>
    obtain ⟨m, rfl⟩ : ∃ k, m = k + 1 := ⟨m - 1, by omega⟩
    exact treeWithin_succ_eq_some_iff.mpr ⟨node, es, hnode,
      mapM_eq_some_mono (fun r _ e he => ih r e he (by omega)) hes, hbuilds⟩

/-- In a well-formed store, fuel beyond the place of a node is enough to read its tree. -/
theorem exists_treeWithin {s : Store} (hs : s.WellFormed) (n : Nat) (r : Ref) (hr : s.Holds r)
    (hn : ∀ i, r = some i → i < n) : ∃ e, s.treeWithin n r = some e := by
  induction n generalizing r with
  | zero =>
    cases r with
    | none => exact ⟨.absent, rfl⟩
    | some i => exact absurd (hn i rfl) (Nat.not_lt_zero i)
  | succ n ih =>
    cases r with
    | none => exact ⟨.absent, rfl⟩
    | some i =>
      obtain ⟨node, hnode⟩ := exists_node? (hr i rfl)
      have hi : i < n + 1 := hn i rfl
      have hchildren : ∀ c ∈ node.shape.children, ∃ e, s.treeWithin n c = some e := by
        -- a child stands before its parent, so less fuel is enough for it
        intro c hc
        refine ih c ?_ ?_
        · rintro j rfl
          exact Nat.lt_trans (hs i node hnode j hc) (hr i rfl)
        · rintro j rfl
          have := hs i node hnode j hc
          omega
      obtain ⟨es, hes, hlength⟩ := exists_mapM_eq_some hchildren
      obtain ⟨e, he⟩ := node.shape.exists_builds node.span es hlength
      exact ⟨e, treeWithin_succ_eq_some_iff.mpr ⟨node, es, hnode, hes, he⟩⟩

/-- **Every reference into a well-formed store denotes a tree.** -/
theorem exists_tree? {s : Store} (hs : s.WellFormed) {r : Ref} (hr : s.Holds r) :
    ∃ e, s.tree? r = some e :=
  exists_treeWithin hs s.size r hr hr

/-! ### Comparing -/

/-- Comparing two lists place by place decides their equality, if comparing two members does. -/
theorem sameListBy_eq {same : Ref → Ref → Option Bool} {f g : Ref → Option Expr}
    (hsame : ∀ a b x y, f a = some x → g b = some y → same a b = some (decide (x = y)))
    {as bs : List Ref} {xs ys : List Expr} (has : as.mapM f = some xs) (hbs : bs.mapM g = some ys) :
    sameListBy same as bs = some (decide (xs = ys)) := by
  rw [mapM_eq_some_iff] at has hbs
  have hxs : as.length = xs.length := by simpa using congrArg List.length has
  have hys : bs.length = ys.length := by simpa using congrArg List.length hbs
  unfold sameListBy
  split
  next hlength =>
    -- four lists at once, all of one length
    induction as generalizing bs xs ys with
    | nil =>
      obtain rfl : xs = [] := List.length_eq_zero_iff.mp hxs.symm
      obtain rfl : bs = [] := List.length_eq_zero_iff.mp hlength.symm
      obtain rfl : ys = [] := List.length_eq_zero_iff.mp hys.symm
      rfl
    | cons a as ih =>
      obtain ⟨b, bs, rfl⟩ := List.exists_cons_of_length_eq_add_one hlength.symm
      obtain ⟨x, xs, rfl⟩ := List.exists_cons_of_length_eq_add_one hxs.symm
      obtain ⟨y, ys, rfl⟩ := List.exists_cons_of_length_eq_add_one hys.symm
      simp only [List.map_cons, List.cons.injEq, List.length_cons, Nat.add_right_cancel_iff]
        at has hbs hxs hys hlength
      have hrest := ih has.2 hbs.2 hxs hys hlength
      rw [sameAllBy, hsame a b x y has.1 hbs.1]
      by_cases hxy : x = y
      · simpa [hxy] using hrest
      · simp [hxy]
  next hlength =>
    have hne : xs ≠ ys := fun h => hlength (by rw [hxs, hys, h])
    rw [decide_eq_false hne]

@[simp] theorem sameWithin_none (s t : Store) (n : Nat) (b : Ref) :
    sameWithin s t n none b = some b.isNone := by
  cases n <;> cases b <;> rfl

@[simp] theorem sameWithin_some_none (s t : Store) (n i : Nat) :
    sameWithin s t n (some i) none = some false := by
  cases n <;> rfl

/-- Two nodes whose children are compared by equality are compared by equality. -/
theorem sameWithin_succ_eq {s t : Store} {n m : Nat}
    (ih : ∀ a b x y, s.treeWithin n a = some x → t.treeWithin m b = some y →
      sameWithin s t n a b = some (decide (x = y)))
    {i j : Nat} {x y : Expr} (hx : s.treeWithin (n + 1) (some i) = some x)
    (hy : t.treeWithin (m + 1) (some j) = some y) :
    sameWithin s t (n + 1) (some i) (some j) = some (decide (x = y)) := by
  obtain ⟨⟨span, shape⟩, es, hi, hes, hx⟩ := treeWithin_succ_eq_some_iff.mp hx
  obtain ⟨⟨span', shape'⟩, es', hj, hes', hy⟩ := treeWithin_succ_eq_some_iff.mp hy
  simp only [sameWithin, hi, hj, Option.bind_eq_bind, Option.bind_some]
  rw [mapM_eq_some_iff] at hes hes'
  -- nodes of different kinds give different trees; nodes of one kind are compared child by child
  cases hx with
  | error =>
    cases hy with
    | error => by_cases hspan : span = span' <;> simp [hspan]
    | _ => simp
  | literal kind text =>
    cases hy with
    | literal kind' text' => by_cases hspan : span = span' <;> simp [hspan, BEq.beq]
    | _ => simp
  | ident name =>
    cases hy with
    | ident name' => by_cases hspan : span = span' <;> simp [hspan, BEq.beq]
    | _ => simp
  | call a name as receiver args =>
    cases hy with
    | call b name' bs receiver' args' =>
      simp only [Shape.children, List.map_cons, List.cons.injEq, ← mapM_eq_some_iff] at hes hes'
      simp only [ih _ _ _ _ hes.1 hes'.1, sameListBy_eq ih hes.2 hes'.2, Option.bind_some]
      by_cases hspan : span = span' <;> by_cases hname : name = name' <;>
        by_cases hreceiver : receiver = receiver' <;> simp [hspan, hname, hreceiver]
    | _ => simp
  | field a name receiver =>
    cases hy with
    | field b name' receiver' =>
      simp only [Shape.children, List.map_cons, List.map_nil, List.cons.injEq] at hes hes'
      simp only [ih _ _ _ _ hes.1 hes'.1]
      by_cases hspan : span = span' <;> by_cases hname : name = name' <;> simp [hspan, hname]
    | _ => simp
  | unary op a operand =>
    cases hy with
    | unary op' b operand' =>
      simp only [Shape.children, List.map_cons, List.map_nil, List.cons.injEq] at hes hes'
      simp only [ih _ _ _ _ hes.1 hes'.1]
      by_cases hspan : span = span' <;> by_cases hop : op = op' <;> simp [hspan, hop]
    | _ => simp
  | paren a inner =>
    cases hy with
    | paren b inner' =>
      simp only [Shape.children, List.map_cons, List.map_nil, List.cons.injEq] at hes hes'
      simp only [ih _ _ _ _ hes.1 hes'.1]
      by_cases hspan : span = span' <;> simp [hspan]
    | _ => simp
  | binary op a b left right =>
    cases hy with
    | binary op' a' b' left' right' =>
      simp only [Shape.children, List.map_cons, List.map_nil, List.cons.injEq] at hes hes'
      simp only [ih _ _ _ _ hes.1 hes'.1, ih _ _ _ _ hes.2.1 hes'.2.1, Option.bind_some]
      by_cases hspan : span = span' <;> by_cases hop : op = op' <;>
        by_cases hleft : left = left' <;> simp [hspan, hop, hleft]
    | _ => simp
  | chain op as =>
    cases hy with
    | chain op' bs =>
      simp only [Shape.children, ← mapM_eq_some_iff] at hes hes'
      simp only [sameListBy_eq ih hes hes']
      by_cases hspan : span = span' <;> by_cases hop : op = op' <;> simp [hspan, hop]
    | _ => simp
  | conditional a b c cond yes no =>
    cases hy with
    | conditional a' b' c' cond' yes' no' =>
      simp only [Shape.children, List.map_cons, List.map_nil, List.cons.injEq] at hes hes'
      simp only [ih _ _ _ _ hes.1 hes'.1, ih _ _ _ _ hes.2.1 hes'.2.1,
        ih _ _ _ _ hes.2.2.1 hes'.2.2.1, Option.bind_some]
      by_cases hspan : span = span' <;> by_cases hcond : cond = cond' <;>
        by_cases hyes : yes = yes' <;> simp [hspan, hcond, hyes]
    | _ => simp

/-- The tree of a node is never absent. -/
theorem ne_absent_of_treeWithin {s : Store} {n i : Nat} {e : Expr}
    (h : s.treeWithin n (some i) = some e) : e ≠ .absent := by
  obtain ⟨m, ⟨span, shape⟩, es, -, -, -, hbuilds⟩ := exists_node_of_treeWithin h
  rintro rfl
  cases hbuilds

/-- With fuel enough for one of two trees, they are compared by equality. -/
theorem sameWithin_eq {s t : Store} (n m : Nat) (a b : Ref) (x y : Expr)
    (hx : s.treeWithin n a = some x) (hy : t.treeWithin m b = some y) :
    sameWithin s t n a b = some (decide (x = y)) := by
  -- The depths need not be the same. A missing child has no node, so it is the same as another
  -- missing child only.
  induction n generalizing m a b x y with
  | zero =>
    cases a with
    | some i => exact absurd hx (by simp)
    | none =>
      obtain rfl : x = .absent := by simpa [eq_comm] using hx
      cases b with
      | none =>
        obtain rfl : y = .absent := by simpa [eq_comm] using hy
        rfl
      | some j => simp [(ne_absent_of_treeWithin hy).symm]
  | succ n ih =>
    match a, b with
    | none, none =>
      obtain rfl : x = .absent := by simpa [eq_comm] using hx
      obtain rfl : y = .absent := by simpa [eq_comm] using hy
      rfl
    | none, some j =>
      obtain rfl : x = .absent := by simpa [eq_comm] using hx
      simp [(ne_absent_of_treeWithin hy).symm]
    | some i, none =>
      obtain rfl : y = .absent := by simpa [eq_comm] using hy
      simp [ne_absent_of_treeWithin hx]
    | some i, some j =>
      cases m with
      | zero => exact absurd hy (by simp)
      | succ m => exact sameWithin_succ_eq (fun a b x y => ih m a b x y) hx hy

/-- **Comparing stored trees is comparing the trees:** two references denote the same tree exactly
when the trees that are read from them are equal. -/
theorem sameTree?_eq {s t : Store} {a b : Ref} {x y : Expr} (hx : s.tree? a = some x)
    (hy : t.tree? b = some y) : s.sameTree? a t b = some (decide (x = y)) := by
  cases b with
  | none =>
    obtain rfl : y = .absent := by simpa [tree?, eq_comm] using hy
    cases a with
    | none =>
      obtain rfl : x = .absent := by simpa [tree?, eq_comm] using hx
      simp [sameTree?]
    | some i => simp [sameTree?, ne_absent_of_treeWithin hx]
  | some j =>
    -- `t` is not empty, so there is fuel enough to read `x` as well
    have ht : 0 < t.size := by
      by_contra hempty
      rw [tree?, show t.size = 0 by omega] at hy
      exact absurd hy (by simp)
    exact sameWithin_eq _ t.size a _ x y (treeWithin_mono (Nat.le_mul_of_pos_right _ ht) hx) hy

end Store

end OperandOrder
