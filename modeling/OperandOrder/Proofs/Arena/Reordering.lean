import OperandOrder.Proofs.Arena.Sorting
import OperandOrder.Proofs.Arena.Writing
import OperandOrder.Proofs.Nodes

/-!
# Reordering trees in arenas

A canonical form is written as it is placed in a store (`Arena.canonical?_lands`). At an infix node
the operands have been written when they are arranged, so they are read from the arena that is being
filled: there they are in canonical form, and their outlines are those of the operands that were
given (`Arena.shows_measure`). Where an operand is missing nothing is compared.

The same holds of a tree that is reordered within a range (`Arena.reorderWithin?_lands`), and the
search for opportunities finds what is shown of the tree (`Arena.opportunities?_eq`).
-/

namespace OperandOrder

namespace Arena

/-! ### Canonical form -/

section Infix

variable {policy : Policy} {span : Span} {shape : Shape} {es : List Expr} {e : Expr} {op : BinaryOp}

/-- An infix node is told by its form. -/
theorem infix_cases (hbuilds : shape.Builds span es e) (hop : shape.form.infixed? = some op) :
    (∃ a b left right, shape = .binary op a b ∧ es = [left, right] ∧
      e = .binary span op left right) ∨ ∃ as, shape = .chain op as ∧ e = .chain span op es := by
  cases hbuilds with
  | binary op' a b left right =>
    obtain rfl : op' = op := Option.some.inj hop
    exact .inl ⟨a, b, left, right, rfl, rfl, rfl⟩
  | chain op' as operands =>
    obtain rfl : op' = op := Option.some.inj hop
    exact .inr ⟨as, rfl, rfl⟩
  | _ => exact absurd hop (by simp [Shape.form, Form.infixed?])

theorem operands_of_infixed (hbuilds : shape.Builds span es e)
    (hop : shape.form.infixed? = some op) : shape.operands = shape.children ∧ e.operands = es := by
  rcases infix_cases hbuilds hop with ⟨a, b, left, right, rfl, rfl, rfl⟩ | ⟨as, rfl, rfl⟩ <;>
    exact ⟨rfl, rfl⟩

theorem canonical_of_infixed (hbuilds : shape.Builds span es e)
    (hop : shape.form.infixed? = some op) :
    e.canonical policy = (Expr.join span op es).canonical policy := by
  rcases infix_cases hbuilds hop with ⟨a, b, left, right, rfl, rfl, rfl⟩ | ⟨as, rfl, rfl⟩
  · rfl
  · exact Expr.canonical_chain policy span op es

/-- The node that joins operands which have been placed. -/
def joined (policy : Policy) (op : BinaryOp) (es : List Expr) (refs : List Ref) : Shape :=
  .join (arrange policy op (Operand.measure es refs)).op
    ((arrange policy op (Operand.measure es refs)).operands.map (·.item))

variable (policy) in
theorem place_of_infixed (hbuilds : shape.Builds span es e) (hop : shape.form.infixed? = some op)
    (s : Store) : s.place (.canonical policy) e = (s.placeAll (.canonical policy) es).1.push
      ⟨span, joined policy op es (s.placeAll (.canonical policy) es).2⟩ := by
  rcases infix_cases hbuilds hop with ⟨a, b, left, right, rfl, rfl, rfl⟩ | ⟨as, rfl, rfl⟩ <;> rfl

/-- The operands of an infix node, written in canonical form, are found in the arena. -/
theorem LandsAll.reads {dst : Arena} {w : WrittenAll} (h : LandsAll (.canonical policy) es dst w) :
    w.refs.map w.arena.tree? = es.map fun e => some (e.canonical policy).expr := by
  have hsize : Expr.sizes es ≤ w.arena.store.size := by
    rw [size_store, h.size]
    omega
  have hreads := h.placedAll.reads _ (.refl _) _ hsize
  rw [List.map_map] at hreads
  exact hreads

/-- Operands that are there are measured by what the arena shows of them. -/
theorem shows_measure {a : Arena} {refs : List Ref}
    (h : refs.map a.tree? = es.map fun e => some (e.canonical policy).expr)
    (hpresent : ∀ e ∈ es, e.isMissing = false) : ∀ x ∈ Operand.measure es refs, a.Shows x := by
  induction es generalizing refs with
  | nil => exact fun x hx => absurd hx (by simp [Operand.measure])
  | cons e es ih =>
    cases refs with
    | nil => exact absurd h (by simp)
    | cons r refs =>
      rw [List.map_cons, List.map_cons, List.cons.injEq] at h
      obtain ⟨he, hes⟩ := List.forall_mem_cons.mp hpresent
      refine List.forall_mem_cons.mpr ⟨⟨_, h.1, Expr.outline_canonical policy e, ?_⟩, ih h.2 hes⟩
      -- what is missing shows in the outline
      have hform := congrArg (fun p => p.form.isMissing) (Expr.outline_canonical policy e)
      simp only [Profile.outline, Form.isMissing_outline] at hform
      exact hform.trans he

/-- Items do not show in what moves. -/
theorem moved_measure {refs : List Ref} (hlength : refs.length = es.length) :
    (arrange policy op (Operand.measure es refs)).moved =
      (Expr.arrangement policy op es).moved := by
  have hforget : (Operand.measure es refs).map (fun x => (⟨x.profile, ()⟩ : Operand Unit)) =
      es.map fun e => ⟨e.profile, ()⟩ := by
    rw [Operand.measure, List.map_zipWith]
    induction es generalizing refs with
    | nil => rfl
    | cons e es ih =>
      obtain ⟨r, refs, rfl⟩ := List.exists_cons_of_length_eq_add_one hlength
      rw [List.zipWith_cons_cons, List.map_cons, ih (Nat.succ.inj hlength)]
  rw [Expr.moved_arrangement, ← hforget,
    arrange_map policy op (fun x : Operand Ref => (⟨x.profile, ()⟩ : Operand Unit)) _
      fun _ _ => rfl]
  rfl

/-- A missing operand is measured as missing. -/
theorem any_isMissing_measure {refs : List Ref} (hlength : refs.length = es.length) :
    (Operand.measure es refs).any (·.profile.form.isMissing) = es.any Expr.isMissing := by
  induction es generalizing refs with
  | nil => rfl
  | cons e es ih =>
    obtain ⟨r, refs, rfl⟩ := List.exists_cons_of_length_eq_add_one hlength
    exact congrArg (e.isMissing || ·) (ih (Nat.succ.inj hlength))

/-- **Operands that have been written are arranged** as they were given, or left as they are if one
is missing. -/
theorem arrangeUnless?_eq {dst : Arena} {w : WrittenAll}
    (h : LandsAll (.canonical policy) es dst w) :
    w.arena.arrangeUnless? policy ((es.map Expr.isMissing).any id) op w.refs =
      some (Sorted.of (arrange policy op (Operand.measure es w.refs))) := by
  have hlength := h.length_refs
  have hitems := Store.map_item_measure hlength
  rw [arrangeUnless?, List.any_map, Function.id_comp]
  split
  next hmissing =>
    have hfixed : isFixed op (Operand.measure es w.refs) = true := by
      rw [isFixed, any_isMissing_measure hlength, hmissing, Bool.or_true]
    rw [arrange_of_isFixed policy op hfixed, Sorted.of, hitems]
  next hmissing =>
    have hpresent : ∀ e ∈ es, e.isMissing = false := by simpa using hmissing
    have harranged := arrange?_eq h.listed policy op (shows_measure h.reads hpresent)
    rwa [hitems] at harranged

/-- A binary node has no list, and any other node that joins operands has one of all of them. -/
theorem length_list_join (op : BinaryOp) (refs : List Ref) :
    (Shape.join op refs).list.length = if refs.length = 2 then 0 else refs.length := by
  unfold Shape.join
  split
  next => rfl
  next hne =>
    rw [if_neg fun htwo => ?_, Shape.list]
    obtain ⟨r, r', rfl⟩ := List.length_eq_two.mp htwo
    exact hne r r' rfl

/-- **The places that an infix node takes** in canonical form: as many as its operands, and those of
its own list. -/
theorem listed_of_infixed (hbuilds : shape.Builds span es e) (hop : shape.form.infixed? = some op)
    (refs : List Ref) (hlength : refs.length = es.length) : (e.canonical policy).expr.listed =
      Expr.listedAll (es.map (Treatment.canonical policy).result) +
        (joined policy op es refs).list.length := by
  have hperm := Expr.arrangement_perm policy op es
  have harranged := (arrange_perm policy op (Operand.measure es refs)).map (·.item)
  rw [Store.map_item_measure hlength] at harranged
  -- arranging the references gives as many operands as arranging the trees
  have hsame : ((arrange policy op (Operand.measure es refs)).operands.map (·.item)).length =
      ((Expr.arrangement policy op es).operands.map (·.item.expr)).length := by
    rw [harranged.length_eq, hlength, List.length_map, hperm.length_eq, List.length_map]
  have hjoin := Store.builds_join span (Expr.arrangement policy op es).op hsame
  have hlisted := hjoin.listed_eq (by rw [Store.children_join, hsame])
  rw [length_list_join] at hlisted
  rw [canonical_of_infixed hbuilds hop, Expr.canonical_join, joined, length_list_join, hlisted]
  -- the operands have changed places, and what they put into lists is a sum over them
  refine congrArg (· + _) (Expr.totals_listedAll.perm ?_)
  have hresults := hperm.map fun x => x.item.expr.listed
  rw [List.map_map, List.map_map]
  rwa [List.map_map] at hresults

/-- **An infix node whose operands are arranged** lands. -/
theorem infixWithin?_lands {src : Arena} (hsrc : src.Listed) {n : Nat}
    {write : Ref → Arena → Option Written} (hwrite : Writes (.canonical policy) src n write)
    (hbuilds : shape.Builds span es e) (hop : shape.form.infixed? = some op)
    (hes : shape.children.mapM (src.store.treeWithin n) = some es) {dst : Arena} (hdst : dst.Listed)
    (hroom : dst.HasRoom (.canonical policy) e) :
    ∃ w, src.infixWithin? policy write span op shape.operands dst = some w ∧
      Lands (.canonical policy) e dst w := by
  have hoperands := (operands_of_infixed hbuilds hop).1
  -- the operands are looked at in the source and written to the destination
  have hmissing : shape.children.mapM src.isMissing? = some (es.map Expr.isMissing) :=
    mapM_eq_some_map (fun r x hx => isMissing?_of_tree hsrc hx) hes
  have hroomall : dst.HasRoomAll (.canonical policy) es :=
    hroom.children hbuilds.size_eq
      (listed_of_infixed hbuilds hop shape.children (length_eq_of_mapM hes).symm)
  -- the operands first, and then the node that names them as they are arranged
  obtain ⟨w, hw, hall⟩ := hwrite.all (mapM_eq_some_iff_forall₂.mp hes) hdst hroomall
  have hplace := place_of_infixed policy hbuilds hop dst.store
  rw [hall.placed] at hplace
  refine ⟨⟨_, _, w.changed || (arrange policy op (Operand.measure es w.refs)).moved⟩, ?_,
    lands_node hall hroom
    hbuilds.size_eq hplace (listed_of_infixed hbuilds hop w.refs hall.length_refs) ?_⟩
  · simp only [infixWithin?, hoperands, hw, hmissing, arrangeUnless?_eq hall, Option.bind_eq_bind,
      Option.bind_some]
    rfl
  · rw [hall.changed, moved_measure hall.length_refs, Treatment.outcome,
      canonical_of_infixed hbuilds hop, Expr.canonical_join]
    rfl

end Infix

section Canonical

variable {src : Arena} (hsrc : src.Listed) (policy : Policy)

include hsrc

/-- A missing operand is copied, which is all that canonical form does to it. -/
theorem operandWithin_writes {n : Nat} {write : Ref → Arena → Option Written}
    (h : Writes (.canonical policy) src n write) :
    Writes (.canonical policy) src n (src.operandWithin write n) := by
  intro r e dst he hdst hroom
  simp only [operandWithin, isMissing?_of_tree hsrc he, Option.bind_eq_bind, Option.bind_some]
  split
  next hmissing =>
    have houtcome : Treatment.keep.outcome e = (Treatment.canonical policy).outcome e := by
      cases e <;> first | rfl | exact absurd hmissing Bool.false_ne_true
    have hplace : ∀ s : Store, s.place (.canonical policy) e = s.place .keep e := by
      cases e <;> first | exact fun _ => rfl | exact absurd hmissing Bool.false_ne_true
    obtain ⟨w, hw, hlands⟩ := copyWithin_writes hsrc n r e dst he hdst (hroom.of_same houtcome)
    exact ⟨w, hw, hlands.of_same hplace houtcome.symm⟩
  next => exact h r e dst he hdst hroom

/-- **The walk into canonical form is written as the treatment asks.** -/
theorem canonicalWithin_writes (n : Nat) :
    Writes (.canonical policy) src n (src.canonicalWithin policy n) := by
  refine writes_of_step (fun n dst => by cases n <;> rfl)
    (fun n i node es e dst ih _ hnode hes hbuilds hdst hroom => ?_) n
  have hform := hbuilds.form_eq (length_eq_of_mapM hes)
  rw [canonicalWithin, node?_eq hsrc, hnode]
  simp only [Option.bind_eq_bind, Option.bind_some]
  cases hop : node.shape.form.infixed? with
  | none =>
    exact rebuild?_lands ih hes hbuilds (.inl (by rw [Expr.infixed?, hform, hop])) hdst hroom
  | some op =>
    exact infixWithin?_lands hsrc (operandWithin_writes hsrc policy ih) hbuilds hop hes hdst hroom

/-- **A canonical form lands.** -/
theorem canonical?_lands {r : Ref} {e : Expr} {dst : Arena} (he : src.tree? r = some e)
    (hdst : dst.Listed) (hroom : dst.HasRoom (.canonical policy) e) :
    ∃ w, src.canonical? policy r dst = some w ∧ Lands (.canonical policy) e dst w := by
  rw [tree?, Store.tree?, size_store] at he
  exact canonicalWithin_writes hsrc policy src.size r e dst he hdst hroom

end Canonical

/-! ### Reordering within a range -/

section Reordering

variable {src : Arena} (hsrc : src.WellFormed) (policy : Policy) (range : Span)

include hsrc

/-- Whatever depth a tree is read with, there are cells enough for it. -/
theorem tree?_of_treeWithin {n : Nat} {r : Ref} {e : Expr}
    (he : src.store.treeWithin n r = some e) : src.tree? r = some e := by
  obtain ⟨d, hd⟩ := exists_tree? hsrc (holds_of_treeWithin he)
  have hmore := Store.treeWithin_mono (Nat.le_max_left n src.store.size) he
  rw [Store.treeWithin_mono (Nat.le_max_right n src.store.size) hd] at hmore
  rwa [← Option.some.inj hmore]

omit hsrc in

/-- Whether an operand is missing is read off the arena. -/
theorem anyMissing?_eq (hsrc : src.Listed) {n : Nat} {rs : List Ref} {es : List Expr}
    (hes : List.Forall₂ (fun r e => src.store.treeWithin n r = some e) rs es) :
    src.anyMissing? rs = some (es.any Expr.isMissing) := by
  induction hes with
  | nil => rfl
  | @cons r e rs es he _ ih =>
    simp only [anyMissing?, isMissing?_of_tree hsrc he, ih, List.any_cons, Option.bind_eq_bind,
      Option.bind_some]
    cases e.isMissing <;> rfl

/-- **A range selects a node** as it selects the tree. -/
theorem selects?_eq {n : Nat} {node : Node} {es : List Expr} {e : Expr}
    (hes : node.shape.children.mapM (src.store.treeWithin n) = some es)
    (hbuilds : node.shape.Builds node.span es e) :
    src.selects? range node = some (e.isSelected range) := by
  have hform := hbuilds.form_eq (length_eq_of_mapM hes)
  rw [selects?, Expr.isSelected, Expr.infixed?, hform, hbuilds.span_eq]
  split
  next h =>
    obtain ⟨op, hop⟩ := Option.isSome_iff_exists.mp (Bool.and_eq_true_iff.mp h).1
    obtain ⟨hchildren, hoperands⟩ := operands_of_infixed hbuilds hop
    rw [hchildren, hoperands, anyMissing?_eq hsrc.listed (mapM_eq_some_iff_forall₂.mp hes), h,
      Option.map_some, Bool.true_and]
  next h =>
    rw [Bool.not_eq_true] at h
    rw [h, Bool.false_and]

omit hsrc in

/-- Canonical form is what becomes of a node that is selected. -/
theorem outcome_of_selected {e : Expr} (h : e.isSelected range = true) :
    (Treatment.within policy range).outcome e = (Treatment.canonical policy).outcome e ∧
      ∀ s : Store, s.place (.within policy range) e = s.place (.canonical policy) e := by
  cases e with
  | binary s op left right =>
    refine ⟨by rw [Treatment.outcome, Expr.reorderWithin, if_pos h, Treatment.outcome], fun s => ?_⟩
    simp only [Store.place, Treatment.enter, h, if_true]
  | chain s op operands =>
    refine ⟨by rw [Treatment.outcome, Expr.reorderWithin, if_pos h, Treatment.outcome], fun s => ?_⟩
    simp only [Store.place, Treatment.enter, h, if_true]
  | _ => exact absurd h Bool.false_ne_true

/-- **The walk within a range is written as the treatment asks:** where a node is selected, it is
the walk into canonical form that goes on. -/
theorem reorderWithin_writes (n : Nat) :
    Writes (.within policy range) src n (src.reorderWithin policy range n) := by
  refine writes_of_step (fun n dst => by cases n <;> rfl)
    (fun n i node es e dst ih he hnode hes hbuilds hdst hroom => ?_) n
  rw [reorderWithin, node?_eq hsrc.listed, hnode]
  simp only [Option.bind_eq_bind, Option.bind_some, selects?_eq hsrc range hes hbuilds]
  split
  next hselected =>
    obtain ⟨houtcome, hplace⟩ := outcome_of_selected policy range hselected
    obtain ⟨w, hw, hlands⟩ := canonical?_lands hsrc.listed policy (tree?_of_treeWithin hsrc he) hdst
      (hroom.of_same houtcome.symm)
    exact ⟨w, hw, hlands.of_same hplace houtcome⟩
  next hselected =>
    exact rebuild?_lands ih hes hbuilds (.inr (.inr ⟨policy, range, rfl, by simpa using hselected⟩))
      hdst hroom

/-- **A tree that is reordered within a range lands,** in an arena of its own. -/
theorem reorderWithin?_lands {r : Ref} {e : Expr} (he : src.tree? r = some e)
    (hroom : empty.HasRoom (.within policy range) e) :
    ∃ w, src.reorderWithin? policy range r = some w ∧ Lands (.within policy range) e empty w := by
  rw [tree?, Store.tree?, size_store] at he
  exact reorderWithin_writes hsrc policy range src.size r e empty he (by decide) hroom

end Reordering

/-! ### Opportunities -/

/-- Room for the canonical form of each infix node, in an arena of its own. -/
def HasRoomBelow (policy : Policy) (e : Expr) : Prop :=
  e.Every fun x => x.infixed?.isSome = true → empty.HasRoom (.canonical policy) x

section Opportunities

variable {src : Arena} (policy : Policy)

/-- What is shown of the children is shown of what a node is built of. -/
theorem shown_of_builds {span : Span} {shape : Shape} {es : List Expr} {e : Expr}
    (h : shape.Builds span es e) (parent : Span) :
    e.shown policy parent = e.shownUnder policy parent ++ es.flatMap (Expr.shown policy span) := by
  rw [Expr.shown_eq, h.span_eq]
  refine congrArg (e.shownUnder policy parent ++ ·) ?_
  cases h with
  | call a name as receiver args =>
    rw [Expr.children]
    split
    next hplain =>
      -- nothing is shown of the receiver of a plain call
      rw [hplain]
      rfl
    next => rfl
  | _ => rfl

/-- There is room below every child. -/
theorem HasRoomBelow.child {span : Span} {shape : Shape} {es : List Expr} {e x : Expr}
    {policy : Policy} (h : HasRoomBelow policy e) (hbuilds : shape.Builds span es e) (hx : x ∈ es) :
    HasRoomBelow policy x := by
  by_cases habsent : x = .absent
  · subst habsent
    exact fun hinfixed => absurd hinfixed Bool.false_ne_true
  · exact Expr.Every.child h (Store.mem_children_of_builds hbuilds hx habsent)

theorem insertAll_append (set : RangeSet) (xs ys : List Span) :
    set.insertAll (xs ++ ys) = (set.insertAll xs).insertAll ys :=
  List.foldl_append

/-- Ranges that are added from one tree after the other. -/
theorem foldlM_eq {n : Nat} (find : Ref → RangeSet → Option RangeSet) (shown : Expr → List Span)
    {rs : List Ref} {es : List Expr}
    (hes : List.Forall₂ (fun r e => src.store.treeWithin n r = some e) rs es)
    (hfind : ∀ r, ∀ e ∈ es, ∀ found, src.store.treeWithin n r = some e →
      find r found = some (found.insertAll (shown e))) (found : RangeSet) :
    rs.foldlM (fun found r => find r found) found = some (found.insertAll (es.flatMap shown)) := by
  induction hes generalizing found with
  | nil => rfl
  | @cons r e rs es he _ ih =>
    have hrest :=
      ih (fun r e he => hfind r e (List.mem_cons_of_mem _ he)) (found.insertAll (shown e))
    rw [List.foldlM_cons, hfind r e List.mem_cons_self found he, List.flatMap_cons,
      insertAll_append]
    exact hrest

variable (hsrc : src.WellFormed)

include hsrc

/-- **A node is found** if it is an opportunity. -/
theorem foundAt?_eq {n i : Nat} {node : Node} {es : List Expr} {e : Expr} (parent : Option Span)
    (found : RangeSet) (he : src.store.treeWithin (n + 1) (some i) = some e)
    (hes : node.shape.children.mapM (src.store.treeWithin n) = some es)
    (hbuilds : node.shape.Builds node.span es e) (hroom : HasRoomBelow policy e) :
    src.foundAt? policy parent i node found =
      some (found.insertAll (e.shownUnder policy (parent.getD e.span))) := by
  have hform := hbuilds.form_eq (length_eq_of_mapM hes)
  rw [foundAt?, Expr.shownUnder, Expr.isOpportunity, Expr.infixed?, hform, hbuilds.span_eq]
  split
  -- a node of infix operands is put in canonical form in a new arena, to see if that moves anything
  next hinfixed =>
    have hroot := Expr.Every.self hroom (by rw [Expr.infixed?, hform, hinfixed])
    obtain ⟨w, hw, hlands⟩ :=
      canonical?_lands hsrc.listed policy (tree?_of_treeWithin hsrc he) (by decide) hroot
    have hchanged : w.changed = (e.canonical policy).changed := hlands.changed
    simp only [hw, hchanged, hinfixed, Option.bind_eq_bind, Option.bind_some, Bool.true_and]
    split <;> rfl
  next hother =>
    rw [Bool.not_eq_true] at hother
    rw [hother]
    rfl

/-- **The walk over opportunities finds what is shown,** given room for the canonical form of
everything below. -/
theorem foundWithin_eq {n : Nat} {r : Ref} {e : Expr} (parent : Option Span) (found : RangeSet)
    (he : src.store.treeWithin n r = some e) (hroom : HasRoomBelow policy e) :
    src.foundWithin policy n parent r found =
      some (found.insertAll (e.shown policy (parent.getD e.span))) := by
  induction n, r, e, he using Store.reading_induct generalizing parent found with
  | absent n => cases n <;> rfl
  | node n i node es e hnode hes hbuilds ih =>
    have he := Store.treeWithin_succ_eq_some_iff.mpr ⟨node, es, hnode, hes, hbuilds⟩
    have hhere := foundAt?_eq policy hsrc parent found he hes hbuilds hroom
    have hbelow := foldlM_eq (fun r found => src.foundWithin policy n (some node.span) r found)
      (Expr.shown policy node.span) (mapM_eq_some_iff_forall₂.mp hes)
      fun r x hx found hr => ih r x hr (some node.span) found (hroom.child hbuilds hx)
    rw [foundWithin, node?_eq hsrc.listed, hnode]
    simp only [Option.bind_eq_bind, Option.bind_some, hhere, hbelow]
    rw [shown_of_builds policy hbuilds, insertAll_append]

/-- **The opportunities of a tree** are found from cell to cell. -/
theorem opportunities?_eq {r : Ref} {e : Expr} (he : src.tree? r = some e)
    (hroom : HasRoomBelow policy e) :
    src.opportunities? policy r = some (e.opportunities policy) := by
  rw [tree?, Store.tree?, size_store] at he
  exact foundWithin_eq policy hsrc none .empty he hroom

end Opportunities

end Arena

end OperandOrder
