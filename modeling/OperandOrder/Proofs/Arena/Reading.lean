import OperandOrder.Proofs.Arena.Storage

/-!
# Reading arenas

Weighing, comparing and printing go from cell to cell, each child looked up where its parent names
it. Wherever a reference denotes a tree these walks have an answer, and it is what the functions on
trees give for that tree: `Arena.weight?_eq`, `Arena.isLarger?_eq`, `Arena.print?_eq`,
`Arena.sameTree?_eq`.

All but the last are inductions on the depth that is read, with one case for each kind of node.
Comparing two arenas is comparing their stores (`Arena.sameWithin_eq`), since both go by the same
steps.
-/

namespace OperandOrder

/-- The answers, member by member. -/
theorem mapM_eq_some_iff_forall₂ {α β : Type} {f : α → Option β} {xs : List α} {ys : List β} :
    xs.mapM f = some ys ↔ List.Forall₂ (fun x y => f x = some y) xs ys := by
  rw [mapM_eq_some_iff, ← List.forall₂_eq_eq_eq, List.forall₂_map_left_iff,
    List.forall₂_map_right_iff]

/-- Answers that follow from other answers. -/
theorem mapM_eq_some_map {α β γ : Type} {f : α → Option β} {g : α → Option γ} {k : β → γ}
    {xs : List α} {ys : List β} (hfg : ∀ x y, f x = some y → g x = some (k y))
    (h : xs.mapM f = some ys) :
    xs.mapM g = some (ys.map k) := by
  rw [mapM_eq_some_iff_forall₂] at h ⊢
  exact List.forall₂_map_right_iff.mpr (h.imp hfg)

/-- As many answers as members. -/
theorem length_eq_of_mapM {α β : Type} {f : α → Option β} {xs : List α} {ys : List β}
    (h : xs.mapM f = some ys) : ys.length = xs.length :=
  (mapM_eq_some_iff_forall₂.mp h).length_eq.symm

/-- The weight of several trees is summed from the right. -/
theorem Expr.weights_eq_foldr (es : List Expr) :
    Expr.weights es = (es.map Expr.weight).foldr (· + ·) 0 := by
  induction es with
  | nil => rfl
  | cons e es ih => rw [Expr.weights, ih, List.map_cons, List.foldr_cons]

namespace Shape.Builds

variable {span : Span} {shape : Shape} {es : List Expr} {e : Expr} (h : shape.Builds span es e)

include h

theorem span_eq : e.span = span := by cases h <;> rfl

/-- The form of a tree is told from its shape, if that has as many children as the tree. -/
theorem form_eq (hlength : es.length = shape.children.length) : e.form = shape.form := by
  cases h with
  | call a name as receiver args => exact congrArg Form.call (Nat.succ.inj hlength)
  | _ => rfl

/-- The weight of a tree is that of its node and of its children. -/
theorem weight_eq : e.weight = shape.ownWeight + (es.map Expr.weight).foldr (· + ·) 0 := by
  cases h with
  | call a name as receiver args =>
    rw [List.map_cons, List.foldr_cons, ← Expr.weights_eq_foldr, Expr.weight, ownWeight,
      Nat.add_assoc]
  | chain op as operands => exact congrArg (1 + ·) (Expr.weights_eq_foldr es)
  | _ => simp [Expr.weight, ownWeight, Nat.add_assoc]

end Shape.Builds

namespace Arena

section OneArena

variable {a : Arena} (ha : a.Listed)

include ha

/-! ### One node -/

/-- The form of a cell is that of the tree in it. -/
theorem form?_of_tree {n i : Nat} {e : Expr} (he : a.store.treeWithin n (some i) = some e) :
    a.form? (some i) = some e.form := by
  obtain ⟨m, node, es, -, hnode, hes, hbuilds⟩ := Store.exists_node_of_treeWithin he
  rw [form?_eq ha, Store.form?, hnode, Option.map_some, hbuilds.form_eq (length_eq_of_mapM hes)]

/-- Whether an operand is missing is told from its cell. -/
theorem isMissing?_of_tree {n : Nat} {r : Ref} {e : Expr} (he : a.store.treeWithin n r = some e) :
    a.isMissing? r = some e.isMissing := by
  cases r with
  | none =>
    obtain rfl : Expr.absent = e := by simpa using he
    rfl
  | some i => rw [isMissing?, form?_of_tree ha he, Option.map_some, Expr.isMissing]

omit ha in

/-- The cell of a tree has its span. -/
theorem span_of_tree {n i : Nat} {e : Expr} (he : a.store.treeWithin n (some i) = some e) :
    ∃ cell, a.cell? (some i) = some cell ∧ cell.span = e.span := by
  obtain ⟨m, node, es, -, hnode, -, hbuilds⟩ := Store.exists_node_of_treeWithin he
  rw [node?_store] at hnode
  obtain ⟨cell, hcell, rfl⟩ := Option.map_eq_some_iff.mp hnode
  exact ⟨cell, hcell, hbuilds.span_eq.symm⟩

omit ha in

/-- What is not missing has a cell. -/
theorem exists_cell {n : Nat} {r : Ref} {e : Expr} (he : a.store.treeWithin n r = some e)
    (hpresent : ¬e.form.isMissing = true) : ∃ i, r = some i := by
  cases r with
  | none =>
    obtain rfl : Expr.absent = e := by simpa using he
    exact absurd rfl hpresent
  | some i => exact ⟨i, rfl⟩

/-! ### Weighing -/

omit ha in
variable (a) in
@[simp] theorem weightWithin_none (n : Nat) : a.weightWithin n none = some 0 := by cases n <;> rfl

/-- **The walk over weights gives the weight of the tree.** -/
theorem weightWithin_eq {n : Nat} {r : Ref} {e : Expr} (he : a.store.treeWithin n r = some e) :
    a.weightWithin n r = some e.weight := by
  induction n, r, e, he using Store.reading_induct with
  | absent n => exact a.weightWithin_none n
  | node n i node es e hnode hes hbuilds ih =>
    have hbelow : node.shape.children.mapM (a.weightWithin n) = some (es.map Expr.weight) :=
      mapM_eq_some_map ih hes
    rw [weightWithin, node?_eq ha, hnode, hbuilds.weight_eq]
    simp only [Option.bind_eq_bind, Option.bind_some, hbelow]

/-- **The weight of a tree** is found from cell to cell. -/
theorem weight?_eq {r : Ref} {e : Expr} (he : a.tree? r = some e) :
    a.weight? r = some e.weight := by
  rw [tree?, Store.tree?, size_store] at he
  exact weightWithin_eq ha he

/-- **Which of two trees is larger** is found from their cells, and looked for only if none
is missing. -/
theorem isLarger?_eq {x y : Ref} {d e : Expr} (hd : a.tree? x = some d) (he : a.tree? y = some e) :
    a.isLarger? x y = some (d.profile.isLarger e.profile) := by
  have hdm : a.isMissing? x = some d.profile.form.isMissing := isMissing?_of_tree ha hd
  have hem : a.isMissing? y = some e.profile.form.isMissing := isMissing?_of_tree ha he
  have hdw : a.weight? x = some d.profile.weight := weight?_eq ha hd
  have hew : a.weight? y = some e.profile.weight := weight?_eq ha he
  simp only [isLarger?, Profile.isLarger, hdm, hem, hdw, hew, Option.bind_eq_bind, Option.bind_some]
  by_cases hd' : d.profile.form.isMissing = true
  · simp [hd']
  by_cases he' : e.profile.form.isMissing = true
  · simp [he']
  -- both are there, so they have cells
  obtain ⟨i, rfl⟩ := exists_cell hd hd'
  obtain ⟨j, rfl⟩ := exists_cell he he'
  have hdf : a.form? (some i) = some d.profile.form := form?_of_tree ha hd
  have hef : a.form? (some j) = some e.profile.form := form?_of_tree ha he
  obtain ⟨c, hc, hcspan⟩ := span_of_tree hd
  obtain ⟨c', hc', hcspan'⟩ := span_of_tree he
  have hdl : c.span.length = d.profile.length := congrArg Span.length hcspan
  have hel : c'.span.length = e.profile.length := congrArg Span.length hcspan'
  rw [Bool.not_eq_true] at hd' he'
  simp only [hdf, hef, hc, hc', hdl, hel, Option.bind_some, hd', he', Bool.or_self,
    Bool.false_eq_true, if_false]
  by_cases habove : Profile.threshold + e.profile.weight < d.profile.weight
  · rw [if_pos habove, if_pos habove]
  by_cases hbelow : Profile.threshold + d.profile.weight < e.profile.weight
  · rw [if_neg habove, if_neg habove, if_pos hbelow, if_pos hbelow]
  · rw [if_neg habove, if_neg habove, if_neg hbelow, if_neg hbelow]
    cases d.profile.form.args? <;> cases e.profile.form.args? <;> rfl

/-! ### Printing -/

omit ha in
variable (a) in
@[simp] theorem fragmentsWithin_none (n : Nat) : a.fragmentsWithin n none = some [] := by
  cases n <;> rfl

/-- Whether a child needs parentheses is told from its cell. -/
theorem needsParens?_of_tree {n : Nat} {r : Ref} {e : Expr} (he : a.store.treeWithin n r = some e)
    (position : Position) : a.needsParens? position r = some (position.wraps e.form) := by
  cases r with
  | none =>
    obtain rfl : Expr.absent = e := by simpa using he
    cases position <;> rfl
  | some i => rw [needsParens?, form?_of_tree ha he, Option.map_some]

/-- The gap behind a sign is told from the cell of its operand. -/
theorem signGap?_of_tree {n : Nat} {r : Ref} {e : Expr} (he : a.store.treeWithin n r = some e)
    (op : UnaryOp) : a.signGap? op r = some (Expr.signGap op e.form) := by
  cases r with
  | none =>
    obtain rfl : Expr.absent = e := by simpa using he
    simp [signGap?, Expr.signGap, Expr.form]
  | some i =>
    rw [signGap?, form?_of_tree ha he, Option.map_some]
    split
    next => rfl
    next h => simp [Expr.signGap, h]

section Children

variable {n : Nat} {output : Ref → Option (List Fragment)}
  (houtput : ∀ r e, a.store.treeWithin n r = some e → output r = some e.fragments)

include houtput

/-- A child is printed with the parentheses that its position asks for. -/
theorem child?_eq (position : Position) {r : Ref} {e : Expr}
    (he : a.store.treeWithin n r = some e) :
    a.child? output position r = some (Fragment.wrap position e.form e.fragments) := by
  simp only [child?, needsParens?_of_tree ha he, houtput r e he, Option.bind_eq_bind,
    Option.bind_some]
  rfl

/-- Operands are printed one by one, the first of them as the leftmost. -/
theorem operands?_eq (op : BinaryOp) (leftmost : Bool) {rs : List Ref} {es : List Expr}
    (hes : List.Forall₂ (fun r e => a.store.treeWithin n r = some e) rs es) :
    a.operands? output op leftmost rs = some (Expr.operandFragments op leftmost es) := by
  induction hes generalizing leftmost with
  | nil => rfl
  | cons he _ ih =>
    simp only [operands?, child?_eq ha houtput _ he, ih false, Option.bind_eq_bind,
      Option.bind_some]
    rfl

omit ha in

/-- Arguments are printed one by one, with a comma in front of all but the first. -/
theorem arguments?_eq (first : Bool) {rs : List Ref} {es : List Expr}
    (hes : List.Forall₂ (fun r e => a.store.treeWithin n r = some e) rs es) :
    arguments? output first rs = some (Expr.argumentFragments first es) := by
  induction hes generalizing first with
  | nil => rfl
  | cons he _ ih =>
    simp only [arguments?, houtput _ _ he, ih false, Option.bind_eq_bind, Option.bind_some]
    rfl

end Children

/-- **The walk of the printer gives the output of the tree.** One case for each shape; in each the
children are printed by the walk one level down, and what stands between them is read off the cell.
-/
theorem fragmentsWithin_eq {n : Nat} {r : Ref} {e : Expr} (he : a.store.treeWithin n r = some e) :
    a.fragmentsWithin n r = some e.fragments := by
  induction n, r, e, he using Store.reading_induct with
  | absent n => exact a.fragmentsWithin_none n
  | node n i node es e hnode hes hbuilds ih =>
    obtain ⟨span, shape⟩ := node
    rw [fragmentsWithin, node?_eq ha, hnode]
    simp only [Option.bind_eq_bind, Option.bind_some]
    rw [mapM_eq_some_iff_forall₂] at hes
    -- One case for each shape. What the walk asks of a child is given by the induction hypothesis,
    -- and the gap behind a sign by the child that was read.
    cases hbuilds with
    | error => rfl
    | literal kind text => rfl
    | ident name => rfl
    | call c name as receiver args =>
      obtain ⟨hreceiver, hargs⟩ := List.forall₂_cons.mp hes
      have hargs := arguments?_eq ih true hargs
      cases c with
      | none =>
        -- a receiver that is not there has no reference, so nothing is looked up
        obtain rfl : Expr.absent = receiver := by simpa using hreceiver
        simp only [hargs, Option.bind_some]
        rfl
      | some c =>
        simp only [child?_eq ha ih _ hreceiver, hargs, Option.map_some, Option.bind_some]
        cases receiver with
        | absent => exact absurd rfl (Store.ne_absent_of_treeWithin hreceiver)
        | _ => rfl
    | field c name receiver =>
      obtain ⟨hreceiver, -⟩ := List.forall₂_cons.mp hes
      simp only [child?_eq ha ih _ hreceiver, Option.bind_some]
      rfl
    | unary op c operand =>
      obtain ⟨hoperand, -⟩ := List.forall₂_cons.mp hes
      simp only [signGap?_of_tree ha hoperand, child?_eq ha ih _ hoperand, Option.bind_some]
      rfl
    | paren c inner =>
      obtain ⟨hinner, -⟩ := List.forall₂_cons.mp hes
      simp only [ih _ _ hinner, Option.bind_some]
      rfl
    | binary op c d left right =>
      refine (operands?_eq ha ih op true hes).trans ?_
      simp [Expr.operandFragments, Expr.fragments]
    | chain op as operands =>
      exact operands?_eq ha ih op true hes
    | conditional c d f cond yes no =>
      obtain ⟨hcond, hbranches⟩ := List.forall₂_cons.mp hes
      obtain ⟨hyes, hlast⟩ := List.forall₂_cons.mp hbranches
      obtain ⟨hno, -⟩ := List.forall₂_cons.mp hlast
      simp only [child?_eq ha ih _ hcond, ih _ _ hyes, ih _ _ hno, Option.bind_some]
      rfl

/-- **The text of a tree** is put together from cell to cell. -/
theorem print?_eq {r : Ref} {e : Expr} (he : a.tree? r = some e) : a.print? r = some e.print := by
  rw [tree?, Store.tree?, size_store] at he
  rw [print?, fragmentsWithin_eq ha he, Option.map_some, Expr.print]

end OneArena

/-! ### Comparing -/

section TwoArenas

variable {a b : Arena} (ha : a.Listed) (hb : b.Listed)

include ha hb

/-- **Comparing two arenas** is comparing their stores. -/
theorem sameWithin_eq (n : Nat) (x y : Ref) :
    sameWithin a b n x y = Store.sameWithin a.store b.store n x y := by
  induction n generalizing x y with
  | zero => cases x <;> cases y <;> rfl
  | succ n ih =>
    match x, y with
    | none, none => rfl
    | none, some _ => rfl
    | some _, none => rfl
    | some i, some j =>
      have hsame : sameWithin a b n = Store.sameWithin a.store b.store n :=
        funext fun x => funext fun y => ih x y
      rw [sameWithin, Store.sameWithin, hsame, node?_store, node?_store]
      cases hi : a.cells[i]? with
      | none => simp [cell?, hi]
      | some c =>
        cases hj : b.cells[j]? with
        | none => simp [cell?, hi, hj]
        | some d =>
          obtain ⟨as, hc, has⟩ := exists_shape? (ha i c hi)
          obtain ⟨bs, hd, hbs⟩ := exists_shape? (hb j d hj)
          have hc : a.nodeOf c = ⟨c.span, c.kind.withList as⟩ := by
            rw [nodeOf, hc, Option.getD_some]
          have hd : b.nodeOf d = ⟨d.span, d.kind.withList bs⟩ := by
            rw [nodeOf, hd, Option.getD_some]
          simp only [cell?, Option.bind_eq_bind, Option.bind_some, Option.map_some, hi, hj, hc, hd]
          refine if_congr Iff.rfl rfl ?_
          obtain ⟨span, kind⟩ := c
          obtain ⟨span', kind'⟩ := d
          -- a list is looked up only where both nodes have one
          cases kind with
          | call r s args =>
            cases kind' with
            | call r' s' args' =>
              simp only [sameStretch?, (has args rfl).1, (hbs args' rfl).1, Option.bind_eq_bind,
                Option.bind_some]
              rfl
            | _ => rfl
          | chain op operands =>
            cases kind' with
            | chain op' operands' =>
              simp only [sameStretch?, (has operands rfl).1, (hbs operands' rfl).1,
                Option.bind_eq_bind, Option.bind_some]
              rfl
            | _ => rfl
          | _ => cases kind' <;> rfl

/-- **The comparison of two stored trees** decides whether they are equal. -/
theorem sameTree?_eq {x y : Ref} {d e : Expr} (hd : a.tree? x = some d) (he : b.tree? y = some e) :
    a.sameTree? x b y = some (decide (d = e)) := by
  rw [sameTree?, sameWithin_eq ha hb, ← size_store a, ← size_store b]
  exact Store.sameTree?_eq hd he

end TwoArenas

/-- **Comparing decides equality** of the trees that two references denote, wherever their cells and
lists stand. So it is reflexive, symmetric and transitive. -/
theorem sameTree?_decides {a b : Arena} (ha : a.WellFormed) (hb : b.WellFormed) {x y : Ref}
    (hx : a.Holds x) (hy : b.Holds y) :
    ∃ d e, a.tree? x = some d ∧ b.tree? y = some e ∧ a.sameTree? x b y = some (decide (d = e)) ∧
      a.sameTree? x a x = some true ∧ b.sameTree? y a x = a.sameTree? x b y ∧
      ∀ (c : Arena) (z : Ref), c.WellFormed → c.Holds z → a.sameTree? x b y = some true →
        b.sameTree? y c z = some true → a.sameTree? x c z = some true := by
  obtain ⟨d, hd⟩ := exists_tree? ha hx
  obtain ⟨e, he⟩ := exists_tree? hb hy
  have hsame := sameTree?_eq ha.listed hb.listed hd he
  refine ⟨d, e, hd, he, hsame, ?_, ?_, fun c z hc hz hxy hyz => ?_⟩
  · rw [sameTree?_eq ha.listed ha.listed hd hd, decide_eq_true rfl]
  · rw [sameTree?_eq hb.listed ha.listed he hd, hsame, decide_eq_decide.mpr eq_comm]
  · obtain ⟨f, hf⟩ := exists_tree? hc hz
    rw [hsame, Option.some.injEq, decide_eq_true_eq] at hxy
    rw [sameTree?_eq hb.listed hc.listed he hf, Option.some.injEq, decide_eq_true_eq] at hyz
    rw [sameTree?_eq ha.listed hc.listed hd hf, decide_eq_true (hxy.trans hyz)]

/-- `f(x, x)` with one cell for both arguments. -/
def sharing : Arena := ⟨#[⟨⟨2, 3⟩, .ident "x"⟩, ⟨⟨0, 7⟩, .call none "f" ⟨0, 2⟩⟩], #[some 0, some 0]⟩

/-- The same with a cell for each, among others that are not reached. -/
def spread : Arena :=
  ⟨#[⟨⟨9, 9⟩, .error⟩, ⟨⟨2, 3⟩, .ident "x"⟩, ⟨⟨2, 3⟩, .ident "x"⟩, ⟨⟨0, 7⟩, .call none "f" ⟨1, 2⟩⟩],
    #[none, some 2, some 1]⟩

/-- One arena shares a node where the other has it twice; the trees are the same. -/
theorem sameTree?_decides_spread : sharing.WellFormed ∧ spread.WellFormed ∧ sharing.Holds (some 1) ∧
    spread.Holds (some 3) ∧ sharing.sameTree? (some 1) spread (some 3) = some true ∧
    ∃ d e, sharing.tree? (some 1) = some d ∧ spread.tree? (some 3) = some e ∧
      sharing.sameTree? (some 1) spread (some 3) = some (decide (d = e)) ∧
      sharing.sameTree? (some 1) sharing (some 1) = some true ∧
      spread.sameTree? (some 3) sharing (some 1) = sharing.sameTree? (some 1) spread (some 3) ∧
      ∀ (c : Arena) (z : Ref), c.WellFormed → c.Holds z →
        sharing.sameTree? (some 1) spread (some 3) = some true →
        spread.sameTree? (some 3) c z = some true → sharing.sameTree? (some 1) c z = some true :=
  ⟨by decide +kernel, by decide +kernel, by decide, by decide, rfl,
    sameTree?_decides (by decide +kernel) (by decide +kernel) (by decide) (by decide)⟩

end Arena

end OperandOrder
