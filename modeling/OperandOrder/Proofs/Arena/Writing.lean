import OperandOrder.Arena.Reorder
import OperandOrder.Proofs.Arena.Reading
import OperandOrder.Proofs.Exactness
import OperandOrder.Proofs.Store.Ownership

/-!
# Writing trees to an arena

What is written to an arena is what is placed in its store: `Arena.Lands` says so of one tree,
together with what is needed to go on. It is kept by every step that writes. A node lands on top of
its children (`Arena.lands_node`), so a node that is put together again lands if its children do
(`Arena.rebuild?_lands`), and a walk that writes each node given that it writes what is below writes
every tree (`Arena.writes_of_step`). A copy is the walk that does no more.

An arena has room for so many cells and so many places of lists. A tree needs a cell for each of its
nodes (`Expr.size`) and a place for each argument of a call and each operand of a chain
(`Expr.listed`).
-/

namespace OperandOrder

/-! ### Places of lists -/

namespace Expr

mutual

/-- **Number of places in lists** that a tree takes. -/
def listed : Expr → Nat
  | .absent | .error _ | .literal .. | .ident .. => 0
  | .call _ receiver _ args => receiver.listed + listedAll args + args.length
  | .field _ receiver _ => receiver.listed
  | .unary _ _ operand => operand.listed
  | .paren _ inner => inner.listed
  | .binary _ _ left right => left.listed + right.listed
  | .chain _ _ operands => listedAll operands + operands.length
  | .conditional _ cond yes no => cond.listed + yes.listed + no.listed

/-- The same for several trees. -/
def listedAll : List Expr → Nat
  | [] => 0
  | e :: es => e.listed + listedAll es

end

theorem totals_listedAll : Totals listedAll listed := fun e es => by rw [listedAll]

end Expr

namespace Shape.Builds

variable {span : Span} {shape : Shape} {es : List Expr} {e : Expr} (h : shape.Builds span es e)

include h

/-- The size of a tree counts its node and its children. -/
theorem size_eq : e.size = 1 + Expr.sizes es := by
  cases h <;> simp [Expr.size, Expr.sizes, Nat.add_assoc]

/-- The lists of a tree are those of its children and its own. -/
theorem listed_eq (hlength : es.length = shape.children.length) :
    e.listed = Expr.listedAll es + shape.list.length := by
  cases h with
  | call a name as receiver args =>
    rw [Expr.listed, Expr.listedAll, list, Nat.succ.inj hlength]
  | chain op as operands =>
    rw [children] at hlength
    rw [Expr.listed, list, hlength]
  | _ => simp [Expr.listed, Expr.listedAll, list, Nat.add_assoc]

/-- Other children, as many as there were. -/
theorem withChildren (refs : List Ref) (hlength : refs.length = es.length) :
    (shape.withChildren refs).Builds span es e ∧ (shape.withChildren refs).children = refs := by
  -- the shape tells how many children there are, and so do the references
  cases h with
  | error =>
    obtain rfl := List.length_eq_zero_iff.mp hlength
    exact ⟨.error, rfl⟩
  | literal kind text =>
    obtain rfl := List.length_eq_zero_iff.mp hlength
    exact ⟨.literal kind text, rfl⟩
  | ident name =>
    obtain rfl := List.length_eq_zero_iff.mp hlength
    exact ⟨.ident name, rfl⟩
  | call a name as receiver args =>
    obtain ⟨r, rs, rfl⟩ := List.exists_cons_of_length_eq_add_one hlength
    exact ⟨.call r name rs receiver args, rfl⟩
  | field a name receiver =>
    obtain ⟨r, rfl⟩ := List.length_eq_one_iff.mp hlength
    exact ⟨.field r name receiver, rfl⟩
  | unary op a operand =>
    obtain ⟨r, rfl⟩ := List.length_eq_one_iff.mp hlength
    exact ⟨.unary op r operand, rfl⟩
  | paren a inner =>
    obtain ⟨r, rfl⟩ := List.length_eq_one_iff.mp hlength
    exact ⟨.paren r inner, rfl⟩
  | binary op a b left right =>
    obtain ⟨r, r', rfl⟩ := List.length_eq_two.mp hlength
    exact ⟨.binary op r r' left right, rfl⟩
  | chain op as operands => exact ⟨.chain op refs es, rfl⟩
  | conditional a b c cond yes no =>
    obtain ⟨r, r', r'', rfl⟩ := List.length_eq_three.mp hlength
    exact ⟨.conditional r r' r'' cond yes no, rfl⟩

end Shape.Builds

/-! ### What a treatment does -/

namespace Treatment

/-- **What becomes of a tree,** and whether it differs. -/
def outcome : Treatment → Expr → Outcome
  | .keep, e => ⟨e, false⟩
  | .within policy range, e => e.reorderWithin policy range
  | .canonical policy, e => e.canonical policy

variable (t : Treatment)

@[simp] theorem expr_outcome (e : Expr) : (t.outcome e).expr = t.result e := by cases t <;> rfl

/-- The outcome for a tree is composed of those for its children. -/
theorem descends_outcome : Expr.Descends t.outcome := by
  cases t with
  | keep =>
    exact ⟨rfl, fun _ => rfl, fun _ _ _ => rfl, fun _ _ => rfl, fun _ _ _ _ => by simp [outcome],
      fun _ _ _ => rfl, fun _ _ _ => rfl, fun _ _ => rfl, fun _ _ _ _ => rfl⟩
  | within policy range => exact Expr.descends_reorderWithin policy range
  | canonical policy => exact Expr.descends_canonical policy

/-- The node is put together again: it is not an infix node, or it is left alone. -/
def Rebuilds (e : Expr) : Prop := e.infixed? = none ∨ Store.Spares t e

variable {t} {span : Span} {shape : Shape} {es : List Expr} {e : Expr}

/-- A node that is spared has changed if one of its two operands has. -/
theorem changed_binary_of_spares {op : BinaryOp} {left right : Expr}
    (h : Store.Spares t (.binary span op left right)) :
    (t.outcome (.binary span op left right)).changed =
      ((t.outcome left).changed || (t.outcome right).changed) := by
  rcases h with rfl | ⟨policy, range, rfl, hselected⟩
  · rfl
  · rw [outcome, Expr.reorderWithin, if_neg (by simp [hselected])]
    rfl

/-- A chain that is spared has changed if one of its operands has. -/
theorem changed_chain_of_spares {op : BinaryOp} (h : Store.Spares t (.chain span op es)) :
    (t.outcome (.chain span op es)).changed = es.any fun x => (t.outcome x).changed := by
  rcases h with rfl | ⟨policy, range, rfl, hselected⟩
  · simp [outcome]
  · rw [outcome, Expr.reorderWithin, if_neg (by simp [hselected]), Expr.reorderAllWithin_eq_map]
    exact List.any_map

/-- What a node that is put together again becomes. -/
theorem builds_outcome (h : shape.Builds span es e) (hrebuilds : t.Rebuilds e) :
    shape.Builds span (es.map t.result) (t.result e) ∧
      (t.outcome e).changed = es.any fun x => (t.outcome x).changed := by
  have hd := t.descends_outcome
  -- The treatments agree on all shapes but those of infix operands, where the premise says that the
  -- node is left as it is.
  cases h with
  | error => rw [← expr_outcome, hd.error]; exact ⟨.error, rfl⟩
  | literal kind text => rw [← expr_outcome, hd.literal]; exact ⟨.literal kind text, rfl⟩
  | ident name => rw [← expr_outcome, hd.ident]; exact ⟨.ident name, rfl⟩
  | call a name as receiver args =>
    rw [← expr_outcome, hd.call]
    simp only [expr_outcome]
    exact ⟨.call a name as _ _, rfl⟩
  | field a name receiver =>
    rw [← expr_outcome, hd.field]
    simp only [expr_outcome]
    exact ⟨.field a name _, by simp⟩
  | unary op a operand =>
    rw [← expr_outcome, hd.unary]
    simp only [expr_outcome]
    exact ⟨.unary op a _, by simp⟩
  | paren a inner =>
    rw [← expr_outcome, hd.paren]
    simp only [expr_outcome]
    exact ⟨.paren a _, by simp⟩
  | binary op a b left right =>
    have hspares := hrebuilds.resolve_left (by simp [Expr.infixed?, Expr.form, Form.infixed?])
    rw [Store.result_binary_of_spares t hspares, changed_binary_of_spares hspares]
    exact ⟨.binary op a b _ _, by simp⟩
  | chain op as operands =>
    have hspares := hrebuilds.resolve_left (by simp [Expr.infixed?, Expr.form, Form.infixed?])
    rw [Store.result_chain_of_spares t hspares, changed_chain_of_spares hspares]
    exact ⟨.chain op as _, rfl⟩
  | conditional a b c cond yes no =>
    rw [← expr_outcome, hd.conditional]
    simp only [expr_outcome]
    exact ⟨.conditional a b c _ _ _, by simp [Bool.or_assoc]⟩

/-- Where a node is spared, the treatment goes on. -/
theorem enter_of_spares (h : Store.Spares t e) : t.enter e = t := by
  rcases h with rfl | ⟨policy, range, rfl, hselected⟩
  · rfl
  · rw [enter, if_neg (by simp [hselected])]

/-- How it is placed. -/
theorem place_of_builds (h : shape.Builds span es e) (hrebuilds : t.Rebuilds e) (s : Store) :
    s.place t e = (s.placeAll t es).1.push ⟨span, shape.withChildren (s.placeAll t es).2⟩ := by
  cases h with
  | binary op a b left right =>
    have hspares := hrebuilds.resolve_left (by simp [Expr.infixed?, Expr.form, Form.infixed?])
    rw [Store.place, enter_of_spares hspares, Store.joined_of_spares t hspares]
    rfl
  | chain op as operands =>
    have hspares := hrebuilds.resolve_left (by simp [Expr.infixed?, Expr.form, Form.infixed?])
    rw [Store.place, enter_of_spares hspares, Store.joined_of_spares t hspares]
    rfl
  | _ => rfl

end Treatment

/-! ### Landing -/

namespace Arena

/-- **Room for what becomes of a tree.** -/
structure HasRoom (dst : Arena) (t : Treatment) (e : Expr) : Prop where
  cells : dst.size + e.size ≤ Span.limit
  lists : dst.lists.size + (t.result e).listed ≤ Span.limit

instance (dst : Arena) (t : Treatment) (e : Expr) : Decidable (dst.HasRoom t e) :=
  decidable_of_iff
    (dst.size + e.size ≤ Span.limit ∧ dst.lists.size + (t.result e).listed ≤ Span.limit)
    ⟨fun h => ⟨h.1, h.2⟩, fun h => ⟨h.1, h.2⟩⟩

/-- The same for several trees. -/
structure HasRoomAll (dst : Arena) (t : Treatment) (es : List Expr) : Prop where
  cells : dst.size + Expr.sizes es ≤ Span.limit
  lists : dst.lists.size + Expr.listedAll (es.map t.result) ≤ Span.limit

/-- **What was written** is what is placed in the store, and nothing that was there has changed. -/
structure Lands (t : Treatment) (e : Expr) (dst : Arena) (w : Written) : Prop where
  grown : dst.Extends w.arena
  listed : w.arena.Listed
  placed : dst.store.place t e = (w.arena.store, w.ref)
  lists : w.arena.lists.size = dst.lists.size + (t.result e).listed
  changed : w.changed = (t.outcome e).changed

/-- The same of several trees. -/
structure LandsAll (t : Treatment) (es : List Expr) (dst : Arena) (w : WrittenAll) : Prop where
  grown : dst.Extends w.arena
  listed : w.arena.Listed
  placed : dst.store.placeAll t es = (w.arena.store, w.refs)
  lists : w.arena.lists.size = dst.lists.size + Expr.listedAll (es.map t.result)
  changed : w.changed = es.any fun x => (t.outcome x).changed

section Landing

variable {t : Treatment} {e : Expr} {es : List Expr} {dst : Arena}

/-- What lands takes one cell for each node. -/
theorem Lands.size {w : Written} (h : Lands t e dst w) : w.arena.size = dst.size + e.size := by
  have hsize := (Store.placed_place e t dst.store).size
  rw [h.placed] at hsize
  simpa using hsize

/-- Trees that land are trees placed in the store. -/
theorem LandsAll.placedAll {w : WrittenAll} (h : LandsAll t es dst w) :
    Store.PlacedAll es (es.map t.result) dst.store w.arena.store w.refs := by
  have hplaced := Store.placedAll_placeAll t es (fun e _ s => Store.placed_place e t s) dst.store
  rwa [h.placed] at hplaced

/-- Trees that land take one cell for each of their nodes. -/
theorem LandsAll.size {w : WrittenAll} (h : LandsAll t es dst w) :
    w.arena.size = dst.size + Expr.sizes es := by
  simpa using h.placedAll.size

/-- Each tree that lands has a reference. -/
theorem LandsAll.length_refs {w : WrittenAll} (h : LandsAll t es dst w) :
    w.refs.length = es.length := by
  have hlength := Store.length_placeAll t es dst.store
  rwa [h.placed] at hlength

/-- Room for several trees is room for the first. -/
theorem HasRoomAll.head (h : dst.HasRoomAll t (e :: es)) : dst.HasRoom t e := by
  obtain ⟨hcells, hlists⟩ := h
  rw [Expr.sizes] at hcells
  rw [List.map_cons, Expr.listedAll] at hlists
  exact ⟨by omega, by omega⟩

/-- Room for the others is left. -/
theorem HasRoomAll.tail (h : dst.HasRoomAll t (e :: es)) {w : Written} (hw : Lands t e dst w) :
    w.arena.HasRoomAll t es := by
  obtain ⟨hcells, hlists⟩ := h
  rw [Expr.sizes] at hcells
  rw [List.map_cons, Expr.listedAll] at hlists
  exact ⟨by rw [hw.size]; omega, by rw [hw.lists]; omega⟩

/-- No trees land anywhere. -/
theorem LandsAll.nil (hdst : dst.Listed) : LandsAll t [] dst ⟨dst, [], false⟩ :=
  ⟨.refl dst, hdst, rfl, rfl, rfl⟩

/-- One more tree in front of others. -/
theorem Lands.cons {w : Written} {w' : WrittenAll} (h : Lands t e dst w)
    (h' : LandsAll t es w.arena w') :
    LandsAll t (e :: es) dst ⟨w'.arena, w.ref :: w'.refs, w.changed || w'.changed⟩ := by
  refine ⟨h.grown.trans h'.grown, h'.listed, ?_, ?_, ?_⟩
  · rw [Store.placeAll, h.placed, h'.placed]
  · rw [h'.lists, h.lists, List.map_cons, Expr.listedAll, Nat.add_assoc]
  · rw [h.changed, h'.changed, List.any_cons]

/-- **A node on top of its children.** Its list is all that it adds to theirs. -/
theorem lands_node {inside : Treatment} {w : WrittenAll} {node : Node} {changed : Bool}
    (hall : LandsAll inside es dst w) (hroom : dst.HasRoom t e) (hsize : e.size = 1 + Expr.sizes es)
    (hplace : dst.store.place t e = w.arena.store.push node)
    (hlisted : (t.result e).listed = Expr.listedAll (es.map inside.result) + node.shape.list.length)
    (hchanged : changed = (t.outcome e).changed) :
    Lands t e dst ⟨(w.arena.push node).1, (w.arena.push node).2, changed⟩ := by
  have htakes : w.arena.Takes node.shape := by
    obtain ⟨hcells, hlists⟩ := hroom
    exact ⟨by rw [hall.size]; omega, by rw [hall.lists]; omega⟩
  have href : (w.arena.push node).2 = (w.arena.store.push node).2 := by
    rw [push_ref htakes, ← size_store]
    rfl
  refine ⟨hall.grown.trans (extends_push htakes), listed_push htakes hall.listed, ?_, ?_, hchanged⟩
  · rw [hplace, store_push htakes hall.listed, href]
  · rw [lists_size_push htakes, hall.lists, hlisted, Nat.add_assoc]

end Landing

/-! ### Walks that write -/

/-- **A walk that writes** whatever it reads from an arena, treated as asked. -/
def Writes (t : Treatment) (src : Arena) (n : Nat) (write : Ref → Arena → Option Written) : Prop :=
  ∀ r e dst, src.store.treeWithin n r = some e → dst.Listed → dst.HasRoom t e →
    ∃ w, write r dst = some w ∧ Lands t e dst w

section Writes

variable {t : Treatment} {src : Arena} {n : Nat} {write : Ref → Arena → Option Written}

/-- Several trees, one after the other. -/
theorem Writes.all (h : Writes t src n write) {rs : List Ref} {es : List Expr} {dst : Arena}
    (hes : List.Forall₂ (fun r e => src.store.treeWithin n r = some e) rs es) (hdst : dst.Listed)
    (hroom : dst.HasRoomAll t es) : ∃ w, writeAll? write rs dst = some w ∧ LandsAll t es dst w := by
  induction hes generalizing dst with
  | nil => exact ⟨_, rfl, .nil hdst⟩
  | cons he _ ih =>
    obtain ⟨w, hw, hlands⟩ := h _ _ dst he hdst hroom.head
    obtain ⟨w', hw', hlands'⟩ := ih hlands.listed (hroom.tail hlands)
    refine ⟨_, ?_, hlands.cons hlands'⟩
    simp only [writeAll?, hw, hw', Option.bind_eq_bind, Option.bind_some]

/-- Room for a node is room for its children. -/
theorem HasRoom.children {dst : Arena} {e : Expr} {es : List Expr} {inside : Treatment} {m : Nat}
    (h : dst.HasRoom t e) (hsize : e.size = 1 + Expr.sizes es)
    (hlisted : (t.result e).listed = Expr.listedAll (es.map inside.result) + m) :
    dst.HasRoomAll inside es := by
  obtain ⟨hcells, hlists⟩ := h
  exact ⟨by omega, by omega⟩

/-- **A node that is put together again** lands. -/
theorem rebuild?_lands (h : Writes t src n write) {node : Node} {es : List Expr} {e : Expr}
    {dst : Arena} (hes : node.shape.children.mapM (src.store.treeWithin n) = some es)
    (hbuilds : node.shape.Builds node.span es e) (hrebuilds : t.Rebuilds e) (hdst : dst.Listed)
    (hroom : dst.HasRoom t e) : ∃ w, rebuild? write node dst = some w ∧ Lands t e dst w := by
  have hlength := length_eq_of_mapM hes
  obtain ⟨hresult, hchanged⟩ := Treatment.builds_outcome hbuilds hrebuilds
  have hlisted := hresult.listed_eq (by rw [List.length_map, hlength])
  obtain ⟨w, hw, hall⟩ :=
    h.all (mapM_eq_some_iff_forall₂.mp hes) hdst (hroom.children hbuilds.size_eq hlisted)
  -- the node has as long a list as before
  obtain ⟨hagain, hchildren⟩ :=
    hresult.withChildren w.refs (by rw [hall.length_refs, List.length_map])
  have hlisted' := hagain.listed_eq (by rw [hchildren, hall.length_refs, List.length_map])
  have hplace := Treatment.place_of_builds hbuilds hrebuilds dst.store
  rw [hall.placed] at hplace
  refine ⟨_, ?_,
    lands_node hall hroom hbuilds.size_eq hplace hlisted' (hall.changed.trans hchanged.symm)⟩
  simp only [rebuild?, hw, Option.bind_eq_bind, Option.bind_some]

/-- A missing tree takes no cell. -/
theorem lands_absent {dst : Arena} (t : Treatment) (hdst : dst.Listed) :
    Lands t .absent dst ⟨dst, none, false⟩ := by
  have habsent : t.outcome .absent = ⟨.absent, false⟩ := t.descends_outcome.absent
  refine ⟨.refl dst, hdst, rfl, ?_, by rw [habsent]⟩
  rw [← t.expr_outcome, habsent]
  rfl

/-- **A walk writes** if it writes each node given that it writes what is below. -/
theorem writes_of_step {walk : Nat → Ref → Arena → Option Written}
    (hnone : ∀ n dst, walk n none dst = some ⟨dst, none, false⟩)
    (hstep : ∀ n i node es e dst, Writes t src n (walk n) →
      src.store.treeWithin (n + 1) (some i) = some e →
      src.store.node? i = some node → node.shape.children.mapM (src.store.treeWithin n) = some es →
      node.shape.Builds node.span es e → dst.Listed → dst.HasRoom t e →
      ∃ w, walk (n + 1) (some i) dst = some w ∧ Lands t e dst w) (n :
    Nat) : Writes t src n (walk n) := by
  intro r e dst he hdst hroom
  induction n, r, e, he using Store.reading_induct generalizing dst with
  | absent n => exact ⟨_, hnone n dst, lands_absent t hdst⟩
  | node n i node es e hnode hes hbuilds ih =>
    have hbelow : Writes t src n (walk n) := fun r e dst he hdst hroom => ih r e he dst hdst hroom
    have he := Store.treeWithin_succ_eq_some_iff.mpr ⟨node, es, hnode, hes, hbuilds⟩
    exact hstep n i node es e dst hbelow he hnode hes hbuilds hdst hroom

end Writes

/-- Where two treatments do the same, what lands under one lands under the other. -/
theorem Lands.of_same {t t' : Treatment} {e : Expr} {dst : Arena} {w : Written}
    (h : Lands t e dst w) (hplace : ∀ s : Store, s.place t' e = s.place t e)
    (houtcome : t'.outcome e = t.outcome e) :
    Lands t' e dst w := by
  have hresult : t'.result e = t.result e := by rw [← t'.expr_outcome, houtcome, t.expr_outcome]
  exact ⟨h.grown, h.listed, (hplace _).trans h.placed, hresult.symm ▸ h.lists,
    houtcome.symm ▸ h.changed⟩

/-- Room is asked for what is written, however it comes about. -/
theorem HasRoom.of_same {t t' : Treatment} {e : Expr} {dst : Arena} (h : dst.HasRoom t e)
    (houtcome : t'.outcome e = t.outcome e) : dst.HasRoom t' e := by
  have hresult : t'.result e = t.result e := by rw [← t'.expr_outcome, houtcome, t.expr_outcome]
  exact ⟨h.cells, hresult.symm ▸ h.lists⟩

section Copying

variable {src : Arena} (hsrc : src.Listed)

include hsrc

/-- **A copy is written as it stands.** -/
theorem copyWithin_writes (n : Nat) : Writes .keep src n (src.copyWithin n) := by
  refine writes_of_step (fun n dst => by cases n <;> rfl)
    (fun n i node es e dst ih _ hnode hes hbuilds hdst hroom => ?_) n
  obtain ⟨w, hw, hlands⟩ := rebuild?_lands ih hes hbuilds (.inr (.inl rfl)) hdst hroom
  refine ⟨w, ?_, hlands⟩
  rw [copyWithin, node?_eq hsrc, hnode]
  exact hw

/-- **A copy lands.** -/
theorem copy?_lands {r : Ref} {e : Expr} {dst : Arena} (he : src.tree? r = some e)
    (hdst : dst.Listed) (hroom : dst.HasRoom .keep e) :
    ∃ w, src.copy? r dst = some w ∧ Lands .keep e dst w := by
  rw [tree?, Store.tree?, size_store] at he
  exact copyWithin_writes hsrc src.size r e dst he hdst hroom

end Copying

end Arena

end OperandOrder
