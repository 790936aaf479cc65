import OperandOrder.Proofs.Arena.Answers
import OperandOrder.Proofs.Locality

/-!
# Comparisons do not see canonical form

A tree that is put in canonical form is written to another arena, with its lists in another order,
its operators flipped, and a chain of two operands as a binary node. Whatever asks for it there is
told what it would have been told before. Comparing looks at the outline of an operand, its weight
and its span, and canonical form keeps all three (`Expr.keeps_canonical`). So a reference to a tree
and one to its canonical form are alike (`Arena.alike_of_becomes`), and two trees compare like their
canonical forms do (`Arena.comparedAlike_of_becomes`).

This holds of every tree below the root at once. The children of a canonical form are the canonical
forms of the children, in some order (`Expr.canonical_mem_slots`); hence every node that is reached
from a reference has its canonical form among the nodes that are reached from what was written
(`Arena.exists_reaches_becomes`).
-/

namespace OperandOrder

/-! ### Children of a canonical form -/

theorem Form.outline_eq_absent_iff {f : Form} : f.outline = .absent ↔ f = .absent := by
  cases f <;> simp [outline]

namespace Expr

variable (policy : Policy)

theorem slots_join (s : Span) (op : BinaryOp) (es : List Expr) : (join s op es).slots = es := by
  unfold join
  split <;> rfl

/-- The operands of a node have slots in its canonical form, in whatever order. -/
theorem canonical_mem_slots_join {s : Span} {op : BinaryOp} {es : List Expr} {x : Expr}
    (hx : x ∈ es) : (x.canonical policy).expr ∈ ((join s op es).canonical policy).expr.slots := by
  rw [canonical_join, slots_join]
  -- arranging only changes the order
  have hjudged : judged policy x ∈ (arrangement policy op es).operands :=
    (arrangement_perm policy op es).mem_iff.mpr (List.mem_map_of_mem hx)
  exact List.mem_map_of_mem (f := fun o : Operand Outcome => o.item.expr) hjudged

/-- **A child's canonical form is a child of the canonical form.** -/
theorem canonical_mem_slots {e x : Expr} (hx : x ∈ e.slots) :
    (x.canonical policy).expr ∈ (e.canonical policy).expr.slots := by
  cases e with
  | absent => exact absurd hx List.not_mem_nil
  | error s => exact absurd hx List.not_mem_nil
  | literal s kind text => exact absurd hx List.not_mem_nil
  | ident s name => exact absurd hx List.not_mem_nil
  | call s receiver name args =>
    rw [canonical, canonicalAll_eq_map, List.map_map]
    exact List.mem_map_of_mem (f := fun y => (y.canonical policy).expr) hx
  | field s receiver name => exact List.mem_map_of_mem (f := fun y => (y.canonical policy).expr) hx
  | unary s op operand => exact List.mem_map_of_mem (f := fun y => (y.canonical policy).expr) hx
  | paren s inner => exact List.mem_map_of_mem (f := fun y => (y.canonical policy).expr) hx
  | binary s op left right =>
    -- the two operands of a binary node are joined like any others
    have hoperand : x ∈ [left, right] := hx
    exact canonical_mem_slots_join policy (s := s) hoperand
  | chain s op operands =>
    rw [canonical_chain]
    exact canonical_mem_slots_join policy hx
  | conditional s cond yes no =>
    exact List.mem_map_of_mem (f := fun y => (y.canonical policy).expr) hx

/-- Nothing else becomes a child that is not there. -/
theorem canonical_eq_absent_iff (e : Expr) : (e.canonical policy).expr = .absent ↔ e = .absent := by
  have houtline := (keeps_canonical policy e).form
  rw [← form_eq_absent_iff, ← form_eq_absent_iff]
  constructor <;> intro h <;> rw [h] at houtline
  · exact Form.outline_eq_absent_iff.mp houtline.symm
  · exact Form.outline_eq_absent_iff.mp houtline

end Expr

namespace Arena

/-! ### What becomes of a reference -/

/-- **One reference denotes the canonical form** of what another one denotes. -/
def Becomes (policy : Policy) (a : Arena) (x : Ref) (b : Arena) (y : Ref) : Prop :=
  ∃ d, a.tree? x = some d ∧ b.tree? y = some (d.canonical policy).expr

/-- Only an absent reference denotes a child that is not there. -/
theorem eq_none_iff_of_tree? {a : Arena} {r : Ref} {e : Expr} (he : a.tree? r = some e) :
    r = none ↔ e = .absent := by
  cases r with
  | none => simpa [tree?, Store.tree?, eq_comm] using he
  | some i => simpa using Store.ne_absent_of_treeWithin he

section Below

variable {policy : Policy} {a b : Arena}

theorem Becomes.eq_none_iff {x y : Ref} (h : Becomes policy a x b y) : x = none ↔ y = none := by
  obtain ⟨d, hx, hy⟩ := h
  rw [eq_none_iff_of_tree? hx, eq_none_iff_of_tree? hy, Expr.canonical_eq_absent_iff]

theorem Becomes.exists_some {i : Nat} {y : Ref} (h : Becomes policy a (some i) b y) :
    ∃ j, y = some j :=
  Option.ne_none_iff_exists'.mp fun hy => Option.some_ne_none i (h.eq_none_iff.mpr hy)

/-- What stands below a node comes to stand below what the node becomes. -/
theorem Becomes.child {i j k : Nat} {node : Node} (h : Becomes policy a (some i) b (some k))
    (hnode : a.store.node? i = some node) (hj : some j ∈ node.shape.children) :
    ∃ node' l, b.store.node? k = some node' ∧ some l ∈ node'.shape.children ∧
      Becomes policy a (some j) b (some l) := by
  obtain ⟨d, hd, hk⟩ := h
  -- what `j` denotes is one of the children of `d`
  obtain ⟨_, hsame, hchildren⟩ := Store.exists_children hd
  obtain rfl := Option.some.inj (hsame.symm.trans hnode)
  have hmem : a.tree? (some j) ∈ d.slots.map some := hchildren ▸ List.mem_map_of_mem hj
  obtain ⟨x, hx, hread⟩ := List.mem_map.mp hmem
  -- so its canonical form is one of the children of the canonical form of `d`
  obtain ⟨node', hnode', hchildren'⟩ := Store.exists_children hk
  have hmem' : some (x.canonical policy).expr ∈ node'.shape.children.map b.store.tree? :=
    hchildren' ▸ List.mem_map_of_mem (Expr.canonical_mem_slots policy hx)
  obtain ⟨r, hr, hread'⟩ := List.mem_map.mp hmem'
  have hbecomes : Becomes policy a (some j) b r := ⟨x, hread.symm, hread'⟩
  obtain ⟨l, rfl⟩ := hbecomes.exists_some
  exact ⟨node', l, hnode', hr, hbecomes⟩

/-- **Every node below a reference** has its canonical form below what the reference becomes. -/
theorem exists_reaches_becomes {r r' : Ref} (h : Becomes policy a r b r') {i : Nat}
    (hi : a.store.Reaches r i) :
    ∃ j, b.store.Reaches r' j ∧ Becomes policy a (some i) b (some j) := by
  -- from the root down, a node at a time
  induction hi with
  | root hr =>
    subst hr
    obtain ⟨j, rfl⟩ := h.exists_some
    exact ⟨j, .root rfl, h⟩
  | child _ hnode hj ih =>
    obtain ⟨k, hk, hbecomes⟩ := ih
    obtain ⟨node', l, hnode', hl, hchild⟩ := hbecomes.child hnode hj
    exact ⟨l, .child hk hnode' hl, hchild⟩

end Below

/-! ### What is asked of a reference -/

/-- **Two references that are alike** in all that a comparison looks at: both are absent or neither
is, and the cells show the same. -/
structure Alike (a : Arena) (x : Ref) (b : Arena) (y : Ref) : Prop where
  absent : x = none ↔ y = none
  weight : ∃ n, a.weight? x = some n ∧ b.weight? y = some n
  missing : ∃ m, a.isMissing? x = some m ∧ b.isMissing? y = some m
  cell : x ≠ none → ∃ c c', a.cell? x = some c ∧ b.cell? y = some c' ∧ c'.span = c.span ∧
    c'.kind.form.isCall = c.kind.form.isCall ∧
      c'.kind.form.literalKind? = c.kind.form.literalKind? ∧
    c'.kind.form.args? = c.kind.form.args?

/-- **Two pairs that compare alike** under an operator. The look-ups of an exemption have an answer
unless one of the operands is absent. -/
structure ComparedAlike (policy : Policy) (op : BinaryOp) (a : Arena) (x y : Ref) (b : Arena)
    (x' y' : Ref) : Prop where
  larger : ∃ larger, a.isLarger? x y = some larger ∧ b.isLarger? x' y' = some larger
  exempts : b.exempts? policy op x' = a.exempts? policy op x
  exemptsRight : b.exemptsRight? policy op y' = a.exemptsRight? policy op y
  exemptsPair : b.exemptsPair? policy op x' y' = a.exemptsPair? policy op x y
  answers : x ≠ none → y ≠ none →
    (a.exempts? policy op x).isSome ∧ (a.exemptsRight? policy op y).isSome ∧
    (a.exemptsPair? policy op x y).isSome

section Look

variable {a b : Arena} {policy : Policy} {op : BinaryOp} {x y x' y' : Ref}

/-! ### Exemptions see outlines -/

/-- What does not see more than outlines does not tell two forms of one outline apart. -/
theorem map_eq_of_outline {β : Type} {o o' : Option Form}
    (h : o'.map Form.outline = o.map Form.outline) {g : Form → β} (hg : ∀ f, g f.outline = g f) :
    o'.map g = o.map g := by
  have hthrough : ∀ o : Option Form, o.map g = (o.map Form.outline).map g := by
    intro o
    rw [Option.map_map]
    exact congrArg (o.map ·) (funext fun f => (hg f).symm)
  rw [hthrough o', h, ← hthrough o]

theorem exempts?_eq_of_outline (hx : (b.form? x').map Form.outline = (a.form? x).map Form.outline) :
    b.exempts? policy op x' = a.exempts? policy op x := by
  unfold exempts?
  rw [map_eq_of_outline hx (policy.exempts_outline op)]

theorem exemptsRight?_eq_of_outline
    (hx : (b.form? x').map Form.outline = (a.form? x).map Form.outline) :
    b.exemptsRight? policy op x' = a.exemptsRight? policy op x :=
  map_eq_of_outline hx (policy.exemptsRight_outline op)

/-- Whether two operands are exempt as a pair is told from their outlines, in any arena. -/
theorem exemptsPair?_eq_of_outline
    (hx : (b.form? x').map Form.outline = (a.form? x).map Form.outline)
    (hy : (b.form? y').map Form.outline = (a.form? y).map Form.outline) :
    b.exemptsPair? policy op x' y' = a.exemptsPair? policy op x y := by
  -- the outlines of both operands decide what is looked up and what is answered
  have hthrough : ∀ (a : Arena) (x y : Ref), a.exemptsPair? policy op x y =
      ((a.form? x).map Form.outline).bind fun f =>
        if policy.exempts op f then some true else ((a.form? y).map Form.outline).map
          (policy.exemptsPair op f) := by
    intro a x y
    unfold exemptsPair?
    cases a.form? x <;> cases a.form? y <;> simp
  rw [hthrough, hx, hy, ← hthrough]

/-- A flip of the operator is not seen, whatever is in the arena. -/
theorem exempts?_converse : a.exempts? policy op.converse x = a.exempts? policy op x := by
  have hadd : (op.converse == .add) = (op == .add) := by cases op <;> rfl
  simp only [exempts?, hadd, show policy.exempts op.converse = policy.exempts op from
    funext (policy.exempts_converse op)]

theorem exemptsRight?_converse :
    a.exemptsRight? policy op.converse x = a.exemptsRight? policy op x :=
  Option.map_congr fun f _ => policy.exemptsRight_converse op f

theorem exemptsPair?_converse :
    a.exemptsPair? policy op.converse x y = a.exemptsPair? policy op x y := by
  simp only [exemptsPair?, Policy.exempts_converse,
    show policy.exemptsPair op.converse = policy.exemptsPair op from
    funext fun f => funext (policy.exemptsPair_converse op f)]

/-! ### What becomes of a reference is like it -/

/-- Where nothing is absent, no exemption is looked up in vain. -/
theorem isSome_exempts? (hx : (a.form? x).isSome) : (a.exempts? policy op x).isSome := by
  unfold exempts?
  split <;> simp [hx]

theorem isSome_exemptsPair? (hx : (a.form? x).isSome) (hy : (a.form? y).isSome) :
    (a.exemptsPair? policy op x y).isSome := by
  obtain ⟨f, hf⟩ := Option.isSome_iff_exists.mp hx
  rw [exemptsPair?, hf, Option.bind_eq_bind, Option.bind_some]
  split <;> simp [hy]

theorem isSome_form? (ha : a.Listed) {e : Expr} (he : a.tree? x = some e) (hx : x ≠ none) :
    (a.form? x).isSome := by
  obtain ⟨i, rfl⟩ := Option.ne_none_iff_exists'.mp hx
  rw [form?_of_tree ha he]
  rfl

/-- What a tree becomes has the same outline. -/
theorem Becomes.outline (ha : a.Listed) (hb : b.Listed) (h : Becomes policy a x b x') :
    (b.form? x').map Form.outline = (a.form? x).map Form.outline := by
  cases x with
  | none =>
    obtain rfl := h.eq_none_iff.mp rfl
    rfl
  | some i =>
    obtain ⟨j, rfl⟩ := h.exists_some
    obtain ⟨d, hd, hd'⟩ := h
    rw [form?_of_tree ha hd, form?_of_tree hb hd']
    exact congrArg some (Expr.keeps_canonical policy d).form

/-- **A tree and its canonical form are alike.** -/
theorem alike_of_becomes (ha : a.Listed) (hb : b.Listed) (h : Becomes policy a x b x') :
    Alike a x b x' := by
  have habsent := h.eq_none_iff
  have houtline := h.outline ha hb
  -- what the outline of a form tells is told by what the node becomes
  have hcall := map_eq_of_outline houtline Form.isCall_outline
  have hliteral := map_eq_of_outline houtline Form.literalKind?_outline
  have hargs := map_eq_of_outline houtline Form.args?_outline
  obtain ⟨d, hd, hd'⟩ := h
  have hkeeps := Expr.keeps_canonical policy d
  refine ⟨habsent, ⟨d.weight, weight?_eq ha hd, ?_⟩, ⟨d.isMissing, isMissing?_of_tree ha hd, ?_⟩,
    fun hx => ?_⟩
  · rw [weight?_eq hb hd', hkeeps.weight]
  · rw [isMissing?_of_tree hb hd', Expr.isMissing, ← Form.isMissing_outline, hkeeps.form,
      Form.isMissing_outline]
    rfl
  · -- both have a cell, whose kind is of the form that was looked up
    obtain ⟨i, rfl⟩ := Option.ne_none_iff_exists'.mp hx
    obtain ⟨j, rfl⟩ := Option.ne_none_iff_exists'.mp (mt habsent.mpr hx)
    obtain ⟨c, hc, hspan⟩ := span_of_tree hd
    obtain ⟨c', hc', hspan'⟩ := span_of_tree hd'
    simp only [form?, hc, hc', Option.map_some, Option.some.injEq] at hcall hliteral hargs
    exact ⟨c, c', hc, hc', hspan'.trans (hkeeps.span.trans hspan.symm), hcall, hliteral, hargs⟩

/-- **Two trees compare like their canonical forms do.** -/
theorem comparedAlike_of_becomes (ha : a.Listed) (hb : b.Listed) (hx : Becomes policy a x b x')
    (hy : Becomes policy a y b y') (op : BinaryOp) : ComparedAlike policy op a x y b x' y' := by
  have hxo := hx.outline ha hb
  have hyo := hy.outline ha hb
  obtain ⟨d, hd, hd'⟩ := hx
  obtain ⟨e, he, he'⟩ := hy
  refine ⟨⟨d.profile.isLarger e.profile, isLarger?_eq ha hd he, ?_⟩, exempts?_eq_of_outline hxo,
    exemptsRight?_eq_of_outline hyo, exemptsPair?_eq_of_outline hxo hyo, fun hxp hyp => ?_⟩
  · rw [isLarger?_eq hb hd' he', ← Profile.isLarger_outline, Expr.outline_canonical,
      Expr.outline_canonical, Profile.isLarger_outline]
  · have hxf := isSome_form? ha hd hxp
    have hyf := isSome_form? ha he hyp
    exact ⟨isSome_exempts? hxf, Option.isSome_map.trans hyf, isSome_exemptsPair? hxf hyf⟩

end Look

/-- **Canonical form does not change what comparisons see.** A tree is written in canonical form,
with the canonical form of everything below it and of what had been written before. Whatever denotes
the canonical form of something is like it, and two of them compare like what they are the canonical
forms of. An exemption does not see a flip of the operator. -/
theorem comparisons_unchanged (policy : Policy) {src : Arena} (hsrc : src.WellFormed) {r : Ref}
    (hr : src.Holds r) :
    (∃ e, src.tree? r = some e ∧ ∀ dst : Arena, dst.WellFormed → dst.HasRoom (.canonical policy) e →
      ∃ w, src.canonical? policy r dst = some w ∧ w.arena.WellFormed ∧
        Becomes policy src r w.arena w.ref ∧
        (∀ i, src.store.Reaches r i →
          ∃ j, w.arena.store.Reaches w.ref j ∧ Becomes policy src (some i) w.arena (some j)) ∧
        ∀ x y, Becomes policy src x dst y → Becomes policy src x w.arena y) ∧
    (∀ b : Arena, b.WellFormed → Becomes policy src none b none ∧
      ∀ x x', Becomes policy src x b x' → Alike src x b x' ∧
        ∀ y y', Becomes policy src y b y' → ∀ op, ComparedAlike policy op src x y b x' y') ∧
    ∀ (a : Arena) (op : BinaryOp) (x y : Ref),
      a.exempts? policy op.converse x = a.exempts? policy op x ∧
      a.exemptsRight? policy op.converse y = a.exemptsRight? policy op y ∧
      a.exemptsPair? policy op.converse x y = a.exemptsPair? policy op x y := by
  obtain ⟨e, he⟩ := exists_tree? hsrc hr
  refine ⟨⟨e, he, fun dst hdst hroom => ?_⟩, fun b hb => ⟨?_, fun x x' hx => ?_⟩,
    fun a op x y => ?_⟩
  · -- what is written only grows the arena, so whatever had become another node still is that node
    obtain ⟨w, hw, hlands⟩ := canonical?_lands hsrc.listed policy he hdst.listed hroom
    have happends : Appends dst e (e.canonical policy).expr w := hlands.appends hdst
    have hbecomes : Becomes policy src r w.arena w.ref := ⟨e, he, happends.reads⟩
    refine ⟨w, hw, happends.wellFormed, hbecomes, fun i hi => exists_reaches_becomes hbecomes hi,
      ?_⟩
    rintro x y ⟨d, hd, hy⟩
    exact ⟨d, hd, (happends.kept y (holds_of_treeWithin hy)).trans hy⟩
  · exact ⟨.absent, src.store.treeWithin_none _, b.store.treeWithin_none _⟩
  · exact ⟨alike_of_becomes hsrc.listed hb.listed hx, fun y y' hy =>
      comparedAlike_of_becomes hsrc.listed hb.listed hx hy⟩
  · exact ⟨exempts?_converse, exemptsRight?_converse, exemptsPair?_converse⟩

/-- `(bb < a) * cc * d`, which comes out as `d * cc * (a > bb)`. -/
def flipping : Arena :=
  ⟨#[⟨⟨1, 3⟩, .ident "bb"⟩, ⟨⟨6, 7⟩, .ident "a"⟩, ⟨⟨1, 7⟩, .binary .lt (some 0) (some 1)⟩,
    ⟨⟨0, 8⟩, .paren (some 2)⟩,
    ⟨⟨11, 13⟩, .ident "cc"⟩, ⟨⟨16, 17⟩, .ident "d"⟩, ⟨⟨0, 17⟩, .chain .mul ⟨0, 3⟩⟩],
      #[some 3, some 4, some 5]⟩

theorem tree?_flipping : flipping.tree? (some 6) = some (.chain ⟨0, 17⟩ .mul
    [.paren ⟨0, 8⟩ (.binary ⟨1, 7⟩ .lt (.ident ⟨1, 3⟩ "bb") (.ident ⟨6, 7⟩ "a")),
      .ident ⟨11, 13⟩ "cc", .ident ⟨16, 17⟩ "d"]) := by decide +kernel

/-- The comparison in parentheses and the name `d`, before and after. -/
theorem comparisons_unchanged_flipping :
    flipping.WellFormed ∧ flipping.Holds (some 6) ∧ empty.WellFormed ∧
    flipping.store.Reaches (some 6) 2 ∧ flipping.store.Reaches (some 6) 5 ∧
    ∃ w i j, flipping.canonical? .standard (some 6) empty = some w ∧
      Becomes .standard flipping (some 2) w.arena (some i) ∧
      Becomes .standard flipping (some 5) w.arena (some j) ∧
      Alike flipping (some 2) w.arena (some i) ∧
      ComparedAlike .standard .mul flipping (some 2) (some 5) w.arena (some i) (some j) ∧
      flipping.exemptsPair? .standard BinaryOp.lt.converse (some 2) (some 5) =
        flipping.exemptsPair? .standard .lt (some 2) (some 5) := by
  have hwell : flipping.WellFormed := by decide +kernel
  have hempty : empty.WellFormed := by decide +kernel
  -- the chain is at 6, and below it a comparison in parentheses, whose operator is turned around
  have hroot : flipping.store.node? 6 = some ⟨⟨0, 17⟩, .chain .mul [some 3, some 4, some 5]⟩ := by
    decide +kernel
  have hinside : flipping.store.node? 3 = some ⟨⟨0, 8⟩, .paren (some 2)⟩ := by decide +kernel
  have hd : flipping.store.Reaches (some 6) 5 :=
    .child (.root rfl) hroot (by decide)
  have hparen : flipping.store.Reaches (some 6) 3 :=
    .child (.root rfl) hroot (by decide)
  have hless : flipping.store.Reaches (some 6) 2 :=
    .child hparen hinside (by decide)
  -- the theorem gives the places of both operands in the arena that was written
  obtain ⟨⟨e, he, hwrites⟩, hcompares, hflips⟩ :=
    comparisons_unchanged .standard hwell (show flipping.Holds (some 6) by decide)
  obtain rfl := Option.some.inj (tree?_flipping.symm.trans he)
  obtain ⟨w, hw, hwritten, -, hbelow, -⟩ := hwrites empty hempty (by decide)
  obtain ⟨i, -, hi⟩ := hbelow 2 hless
  obtain ⟨j, -, hj⟩ := hbelow 5 hd
  obtain ⟨halike, hpairs⟩ := (hcompares w.arena hwritten).2 _ _ hi
  exact ⟨hwell, by decide, hempty, hless, hd, w, i, j, hw, hi, hj, halike, hpairs _ _ hj .mul,
    (hflips flipping .lt (some 2) (some 5)).2.2⟩

end Arena

end OperandOrder
