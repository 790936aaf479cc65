import OperandOrder.Parser
import OperandOrder.Proofs.Nodes
import OperandOrder.Proofs.Store.Reordering

/-!
# Reordering within a range is local

A node is told by the *path* that leads to it from the root, the numbers of the children that are
gone through. Reordering within a range goes down from the root until it meets a node that the range
selects. So a node that is not selected and has nothing selected above it is found at its path as it
was, with as many children in the same order (`Expr.shell`), and where the first selected node
stood, its canonical form stands (`Expr.at?_reorderWithin`). Paths are all that is needed to say
this: on the way down no operands are exchanged, so the children of what is kept are found under the
numbers they had. An incomplete node between two selected ones needs no word of its own. It is not
selected, and what is above it is.

What is said of trees is said of stores by following the references of one store along the path
(`Store.map_tree?_follow?`). `Store.reorderWithin?_local` puts this together with the second run,
which finds the same nodes selected and nothing left to do.
-/

namespace OperandOrder

namespace Expr

/-! ### Paths in a tree -/

/-- The places for children, left to right. A call has one for its receiver, though nothing may
be there. -/
def slots : Expr → List Expr
  | .call _ receiver _ args => receiver :: args
  | e => e.children

/-- **What stands at the end of a path.** -/
def at? : Expr → List Nat → Option Expr
  | e, [] => some e
  | e, i :: path => e.slots[i]?.bind fun child => child.at? path

/-- **A node by itself:** its kind, operator, names, span and number of children, with nothing in
their places. -/
def shell : Expr → Expr
  | .call s _ name args => .call s .absent name (args.map fun _ => .absent)
  | .field s _ name => .field s .absent name
  | .unary s op _ => .unary s op .absent
  | .paren s _ => .paren s .absent
  | .binary s op _ _ => .binary s op .absent .absent
  | .chain s op operands => .chain s op (operands.map fun _ => .absent)
  | .conditional s _ _ _ => .conditional s .absent .absent .absent
  | e => e

variable (policy : Policy) {range : Span}

/-- **A node that is not selected is kept,** and its children are reordered where they are. -/
theorem reorderWithin_of_not_selected {e : Expr} (h : e.isSelected range = false) :
    (e.reorderWithin policy range).expr.shell = e.shell ∧
      (e.reorderWithin policy range).expr.slots = e.slots.map fun x =>
        (x.reorderWithin policy range).expr := by
  -- a node that is not selected is rebuilt from its slots, whatever its kind
  cases e with
  | call s receiver name args =>
    rw [(descends_reorderWithin policy range).call]
    refine ⟨?_, rfl⟩
    rw [shell, shell, List.map_map]
    rfl
  | binary s op left right =>
    rw [reorderWithin_binary_of_not_selected policy range h]
    exact ⟨rfl, rfl⟩
  | chain s op operands =>
    rw [reorderWithin_chain_of_not_selected policy range h]
    refine ⟨?_, rfl⟩
    rw [shell, shell, List.map_map]
    rfl
  | _ => exact ⟨rfl, rfl⟩

/-- **What stands at a path after reordering** is what stood there before, reordered, if nothing
above it is selected. -/
theorem at?_reorderWithin {e : Expr} {path : List Nat}
    (hclear : ∀ above x, above <+: path → above ≠ path → e.at? above = some x →
      x.isSelected range = false) :
    (e.reorderWithin policy range).expr.at? path =
      (e.at? path).map fun x => (x.reorderWithin policy range).expr := by
  -- down the path: what is kept passes the question on to the child, and a selected node ends it
  induction path generalizing e with
  | nil => rfl
  | cons i path ih =>
    -- the root is above the end of the path
    have hroot : e.isSelected range = false :=
      hclear [] e List.nil_prefix (List.cons_ne_nil i path).symm rfl
    obtain ⟨-, hslots⟩ := reorderWithin_of_not_selected policy hroot
    rw [at?, at?, hslots, List.getElem?_map]
    cases hchild : e.slots[i]? with
    | none => rfl
    | some child =>
      -- what is above the end on the way from the child is above it on the way from the root
      refine ih fun above x hup hne hx => hclear (i :: above) x ?_ ?_ ?_
      · exact List.cons_prefix_cons.mpr ⟨rfl, hup⟩
      · exact fun heq => hne (List.cons.inj heq).2
      · rw [at?, hchild]
        exact hx

end Expr

namespace Store

/-! ### Paths in a store -/

/-- **The reference at the end of a path.** -/
def follow? (s : Store) : Ref → List Nat → Option Ref
  | r, [] => some r
  | r, i :: path =>
    (s.at? r).bind fun node => node.shape.children[i]?.bind fun child => s.follow? child path

/-- Whether a range selects the node at a reference. -/
def selects (s : Store) (range : Span) (r : Ref) : Bool := (s.tree? r).any (·.isSelected range)

/-- **Nothing on the way** along a path is selected, its end not counted. -/
def ClearWay (s : Store) (range : Span) (r : Ref) (path : List Nat) : Prop :=
  ∀ above a, above <+: path → above ≠ path → s.follow? r above = some a → s.selects range a = false

/-- The children of a node denote what stands in the places of its tree. -/
theorem exists_children {s : Store} {i : Nat} {e : Expr} (h : s.tree? (some i) = some e) :
    ∃ node, s.node? i = some node ∧ node.shape.children.map s.tree? = e.slots.map some := by
  cases hsize : s.size with
  | zero =>
    rw [tree?, hsize] at h
    exact absurd h (by simp)
  | succ n =>
    rw [tree?, hsize] at h
    obtain ⟨⟨span, shape⟩, es, hnode, hes, hbuilds⟩ := treeWithin_succ_eq_some_iff.mp h
    -- children are read with one node less of depth, which makes no difference
    have hread : shape.children.mapM s.tree? = some es := by
      refine mapM_eq_some_mono (fun child _ x hx => ?_) hes
      rw [tree?, hsize]
      exact treeWithin_mono (Nat.le_succ n) hx
    have hslots : e.slots = es := by cases hbuilds <;> rfl
    rw [mapM_eq_some_iff, ← hslots] at hread
    exact ⟨⟨span, shape⟩, hnode, hread⟩

/-- **Following references is going down the tree.** -/
theorem map_tree?_follow? {s : Store} {r : Ref} {e : Expr} (h : s.tree? r = some e)
    (path : List Nat) : (s.follow? r path).map s.tree? = (e.at? path).map some := by
  induction path generalizing r e with
  | nil => exact congrArg some h
  | cons i path ih =>
    cases r with
    | none =>
      -- below a child that is not there, there is nothing
      obtain rfl : e = .absent := by simpa [tree?, eq_comm] using h
      rfl
    | some j =>
      obtain ⟨node, hnode, hchildren⟩ := exists_children h
      have hat : s.at? (some j) = some node := hnode
      have hchild := congrArg (·[i]?) hchildren
      simp only [List.getElem?_map] at hchild
      rw [follow?, hat, Option.bind_some, Expr.at?]
      cases hslot : e.slots[i]? with
      | none =>
        rw [hslot, Option.map_none, Option.map_eq_none_iff] at hchild
        rw [hchild]
        rfl
      | some x =>
        rw [hslot, Option.map_some, Option.map_eq_some_iff] at hchild
        obtain ⟨child, hchild, hx⟩ := hchild
        rw [hchild]
        exact ih hx

variable {s : Store} {r : Ref} {e : Expr} {path : List Nat}

/-- What a path in the store leads to denotes what the path leads to in the tree. -/
theorem exists_at?_of_follow? (h : s.tree? r = some e) {a : Ref} (ha : s.follow? r path = some a) :
    ∃ x, e.at? path = some x ∧ s.tree? a = some x := by
  have hread := map_tree?_follow? h path
  rw [ha, Option.map_some, eq_comm, Option.map_eq_some_iff] at hread
  obtain ⟨x, hx, hsame⟩ := hread
  exact ⟨x, hx, hsame.symm⟩

theorem exists_follow?_of_at? (h : s.tree? r = some e) {x : Expr} (hx : e.at? path = some x) :
    ∃ a, s.follow? r path = some a ∧ s.tree? a = some x := by
  have hread := map_tree?_follow? h path
  rwa [hx, Option.map_some, Option.map_eq_some_iff] at hread

/-- The way is clear in the tree. -/
theorem ClearWay.at? {range : Span} (hclear : s.ClearWay range r path) (h : s.tree? r = some e)
    {above : List Nat} {x : Expr} (hup : above <+: path) (hne : above ≠ path)
    (hx : e.at? above = some x) :
    x.isSelected range = false := by
  obtain ⟨a, ha, hread⟩ := exists_follow?_of_at? h hx
  have hselects := hclear above a hup hne ha
  rwa [selects, hread, Option.any_some] at hselects

/-! ### Reordering within a range -/

/-- **Locality.** Along every path from the root of a tree on which nothing is selected, the
reordered tree has the same node, if it is not selected either, and otherwise the tree that putting
the selected one in canonical form gives. -/
structure Local (policy : Policy) (range : Span) (src : Store) (r : Ref) (t : Store × Ref) :
    Prop where
  kept : ∀ path a, src.follow? r path = some a → src.ClearWay range r path →
    src.selects range a = false →
    ∃ a' x x', t.1.follow? t.2 path = some a' ∧ src.tree? a = some x ∧ t.1.tree? a' = some x' ∧
      x'.shell = x.shell
  reordered : ∀ path a, src.follow? r path = some a → src.ClearWay range r path →
    src.selects range a = true → ∃ a', t.1.follow? t.2 path = some a' ∧ ∀ dst, ∃ u changed,
      src.canonical? policy a dst = some (u, changed) ∧ t.1.sameTree? a' u.1 u.2 = some true

/-- What a path with a clear way leads to in the reordered tree. -/
theorem exists_follow?_reordered (policy : Policy) {range : Span} {t : Store × Ref}
    (h : s.tree? r = some e) (ht : t.1.tree? t.2 = some (e.reorderWithin policy range).expr)
    {a : Ref} (ha : s.follow? r path = some a) (hclear : s.ClearWay range r path) :
    ∃ a' x, t.1.follow? t.2 path = some a' ∧ s.tree? a = some x ∧
      t.1.tree? a' = some (x.reorderWithin policy range).expr := by
  obtain ⟨x, hx, hread⟩ := exists_at?_of_follow? h ha
  have hplace : (e.reorderWithin policy range).expr.at? path = _ :=
    Expr.at?_reorderWithin policy fun _ _ hup hne => hclear.at? h hup hne
  rw [hx, Option.map_some] at hplace
  obtain ⟨a', ha', hread'⟩ := exists_follow?_of_at? ht hplace
  exact ⟨a', x, ha', hread, hread'⟩

/-- **Reordering within a range is local and stable.** A tree in a well-formed store is reordered,
where the range selects and nowhere else, and reordering the result within the same range reports no
change and gives the same tree. -/
theorem reorderWithin?_local (policy : Policy) (range : Span) {src : Store} {r : Ref}
    (hsrc : src.WellFormed) (hr : src.Holds r) :
    ∃ (t t' : Store × Ref) (changed : Bool), src.reorderWithin? policy range r = some (t, changed) ∧
      Local policy range src r t ∧
      t.1.reorderWithin? policy range t.2 = some (t', false) ∧
      t.1.sameTree? t.2 t'.1 t'.2 = some true := by
  obtain ⟨e, he⟩ := exists_tree? hsrc hr
  obtain ⟨t, ht, hread⟩ := reorderWithin?_of_tree? policy he range
  obtain ⟨t', ht', hread'⟩ := reorderWithin?_of_tree? policy hread range
  rw [Expr.reorderWithin_reorderWithin] at ht' hread'
  -- the second run finds nothing to do, so both results denote the same tree
  refine ⟨t, t', _, ht, ⟨fun path a ha hclear hselects => ?_, fun path a ha hclear hselects => ?_⟩,
    ht', ?_⟩
  · obtain ⟨a', x, ha', hx, hx'⟩ := exists_follow?_reordered policy he hread ha hclear
    rw [selects, hx, Option.any_some] at hselects
    exact ⟨a', x, _, ha', hx, hx', (Expr.reorderWithin_of_not_selected policy hselects).1⟩
  · obtain ⟨a', x, ha', hx, hx'⟩ := exists_follow?_reordered policy he hread ha hclear
    rw [selects, hx, Option.any_some] at hselects
    refine ⟨a', ha', fun dst => ?_⟩
    obtain ⟨u, hu, hplaced⟩ := canonical?_of_tree? policy hx dst
    refine ⟨u, _, hu, ?_⟩
    rw [Expr.reorderWithin_of_selected policy range hselects] at hx'
    rw [sameTree?_eq hx' hplaced]
    simp
  · rw [sameTree?_eq hread hread']
    simp

/-- In `bb * a + cc * b +` an operand of the sum was not found, and an inverted range selects the
first product only: `a * bb + cc * b +`. -/
theorem reorderWithin?_local_incomplete :
    let parsed := ofParsed (parse "bb * a + cc * b +").expr
    let range : Span := ⟨6, 1⟩
    parsed.1.WellFormed ∧ parsed.1.Holds parsed.2 ∧
    [[], [0], [1], [2]].map
      (fun path => (parsed.1.follow? parsed.2 path).map (parsed.1.selects range)) =
      [some false, some true, some false, some false] ∧
    ∃ (t t' : Store × Ref) (changed : Bool),
      parsed.1.reorderWithin? .standard range parsed.2 = some (t, changed) ∧
      Local .standard range parsed.1 parsed.2 t ∧
      t.1.reorderWithin? .standard range t.2 = some (t', false) ∧
      t.1.sameTree? t.2 t'.1 t'.2 = some true :=
  ⟨by decide +kernel, by decide +kernel, by decide +kernel,
    reorderWithin?_local .standard ⟨6, 1⟩ (by decide +kernel) (by decide +kernel)⟩

end Store

end OperandOrder
