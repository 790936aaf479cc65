import OperandOrder.Proofs.Breadth
import OperandOrder.Proofs.Exactness

/-!
# Even trees

Operands are compared by the length of the text they were read from. In a tree that was printed that
is the width of the output of each operand; such a tree is called *even* (`Expr.Even`). Canonical
form keeps trees even (`Expr.even_canonical`), and of an even tree it sees no more than the breadths
of its nodes: it does with it what it does with the tree in which every node spans its own breadth
(`Expr.ruled`, `Expr.changed_ruled`). Hence even trees that differ in the places of their nodes only
are changed alike (`Expr.changed_congr`).
-/

namespace OperandOrder

namespace Expr

variable (policy : Policy)

/-! ### Every node of a canonical form -/

/-- **What canonical form keeps at a node,** it keeps at every node. -/
theorem every_canonical {p : Expr → Prop} (hp : ∀ x, p x → p (x.canonical policy).expr) (e : Expr)
    (h : e.Every p) : (e.canonical policy).expr.Every p := by
  have hnode := hp e h.self
  -- a node of infix operands is put together from operands in another order
  have hjoin : ∀ s op es, p ((join s op es).canonical policy).expr →
      (∀ e ∈ es, (e.canonical policy).expr.Every p) →
        ((join s op es).canonical policy).expr.Every p := by
    intro s op es hnode hes
    rw [canonical_join] at hnode ⊢
    refine every_join.mpr ⟨hnode, fun x hx => ?_⟩
    obtain ⟨operand, hoperand, rfl⟩ := List.mem_map.mp hx
    obtain ⟨e, he, rfl⟩ := mem_arrangement policy hoperand
    exact hes e he
  induction e using induct with
  | absent => exact h
  | error s => exact h
  | literal s kind text => exact h
  | ident s name => exact h
  | call s receiver name args hreceiver hargs =>
    obtain ⟨-, hr, has⟩ := h
    rw [everyOf_iff] at has
    rw [canonical, canonicalAll_eq_map] at hnode ⊢
    refine ⟨hnode, hreceiver hr (hp _ hr.self), (everyOf_iff p _).mpr fun x hx => ?_⟩
    rw [List.map_map] at hx
    obtain ⟨e, he, rfl⟩ := List.mem_map.mp hx
    exact hargs e he (has e he) (hp _ (has e he).self)
  | field s receiver name hreceiver => exact ⟨hnode, hreceiver h.2 (hp _ h.2.self)⟩
  | unary s op operand hoperand => exact ⟨hnode, hoperand h.2 (hp _ h.2.self)⟩
  | paren s inner hinner => exact ⟨hnode, hinner h.2 (hp _ h.2.self)⟩
  | binary s op left right hleft hright =>
    obtain ⟨-, hl, hr⟩ := h
    exact hjoin s op [left, right] hnode
      (forall_mem_pair (hleft hl (hp _ hl.self)) (hright hr (hp _ hr.self)))
  | chain s op operands hoperands =>
    have hmembers := (everyOf_iff p operands).mp h.2
    rw [canonical_chain] at hnode ⊢
    exact hjoin s op operands hnode fun e he => hoperands e he (hmembers e he)
      (hp _ (hmembers e he).self)
  | conditional s cond yes no hcond hyes hno =>
    obtain ⟨-, hc, hy, hn⟩ := h
    exact ⟨hnode, hcond hc (hp _ hc.self), hyes hy (hp _ hy.self), hno hn (hp _ hn.self)⟩

/-! ### Even trees -/

/-- **An even tree:** every operand is as long as it is broad. -/
def Even (e : Expr) : Prop := e.Every fun x => ∀ y ∈ x.operands, y.span.length = y.breadth

/-- **Canonical form keeps a tree even.** -/
theorem even_canonical (e : Expr) (h : e.Even) : (e.canonical policy).expr.Even := by
  refine every_canonical policy ?_ e h
  have hjoin : ∀ s op es, (∀ y ∈ es, y.span.length = y.breadth) →
      ∀ y ∈ ((join s op es).canonical policy).expr.operands, y.span.length = y.breadth := by
    intro s op es hes y hy
    rw [canonical_join, operands_join] at hy
    obtain ⟨operand, hoperand, rfl⟩ := List.mem_map.mp hy
    obtain ⟨e, he, rfl⟩ := mem_arrangement policy hoperand
    -- canonical form keeps both the place of an operand and its breadth
    change (e.canonical policy).expr.span.length = (e.canonical policy).expr.breadth
    rw [(keeps_canonical policy e).span, breadth_canonical, hes e he]
  intro x hx
  cases x with
  | binary s op left right => exact hjoin s op [left, right] hx
  | chain s op operands =>
    rw [canonical_chain]
    exact hjoin s op operands hx
  | _ => exact List.forall_mem_nil _

/-! ### Ruled trees -/

mutual

/-- **A tree with every node spanning its breadth.** -/
def ruled : Expr → Expr
  | .absent => .absent
  | .error s => .error ⟨0, (error s).breadth⟩
  | .literal s kind text => .literal ⟨0, (literal s kind text).breadth⟩ kind text
  | .ident s name => .ident ⟨0, (ident s name).breadth⟩ name
  | .call s receiver name args =>
    .call ⟨0, (call s receiver name args).breadth⟩ receiver.ruled name (ruledAll args)
  | .field s receiver name => .field ⟨0, (field s receiver name).breadth⟩ receiver.ruled name
  | .unary s op operand => .unary ⟨0, (unary s op operand).breadth⟩ op operand.ruled
  | .paren s inner => .paren ⟨0, (paren s inner).breadth⟩ inner.ruled
  | .binary s op left right =>
    .binary ⟨0, (binary s op left right).breadth⟩ op left.ruled right.ruled
  | .chain s op operands => .chain ⟨0, (chain s op operands).breadth⟩ op (ruledAll operands)
  | .conditional s cond yes no =>
    .conditional ⟨0, (conditional s cond yes no).breadth⟩ cond.ruled yes.ruled no.ruled

/-- The same for several trees. -/
def ruledAll : List Expr → List Expr
  | [] => []
  | e :: es => e.ruled :: ruledAll es

end

theorem ruledAll_eq_map (es : List Expr) : ruledAll es = es.map ruled := by
  induction es with
  | nil => rfl
  | cons e es ih => rw [ruledAll, ih, List.map_cons]

/-- An infix node is ruled through its operands. -/
theorem ruled_join (s : Span) (op : BinaryOp) (es : List Expr) :
    (join s op es).ruled = join ⟨0, (join s op es).breadth⟩ op (es.map ruled) := by
  match es with
  | [] => rfl
  | [_] => rfl
  | [_, _] => rfl
  | _ :: _ :: _ :: _ => simp [join, ruled, ruledAll_eq_map]

theorem length_span_ruled (e : Expr) : e.ruled.span.length = e.breadth := by
  cases e <;> rfl

theorem form_ruled (e : Expr) : e.ruled.form = e.form := by
  cases e with
  | call s receiver name args =>
    exact congrArg Form.call (by rw [ruledAll_eq_map, List.length_map])
  | _ => rfl

/-- Weight has nothing to do with places. -/
theorem weight_ruled (e : Expr) : e.ruled.weight = e.weight := by
  induction e using induct with
  | call s receiver name args hreceiver hargs =>
    rw [ruled, ruledAll_eq_map, weight, weight, hreceiver, totals_weights.map hargs]
  | field s receiver name hreceiver => rw [ruled, weight, weight, hreceiver]
  | unary s op operand hoperand => rw [ruled, weight, weight, hoperand]
  | paren s inner hinner => rw [ruled, weight, weight, hinner]
  | binary s op left right hleft hright => rw [ruled, weight, weight, hleft, hright]
  | chain s op operands hoperands =>
    rw [ruled, ruledAll_eq_map, weight, weight, totals_weights.map hoperands]
  | conditional s cond yes no hcond hyes hno => rw [ruled, weight, weight, hcond, hyes, hno]
  | _ => rfl

/-- A comparison does not tell an operand that is as long as it is broad from the ruled one. -/
theorem profile_ruled {e : Expr} (h : e.span.length = e.breadth) : e.ruled.profile = e.profile := by
  rw [profile, profile, form_ruled, weight_ruled, length_span_ruled, h]

/-! ### Places do not matter -/

/-- The ruled tree does not depend on where the nodes of the tree stand. -/
theorem ruled_bare (e : Expr) : e.bare.ruled = e.ruled := by
  have hbreadth := breadth_bare e
  -- the span of a node is ruled by its breadth, which does not depend on spans
  induction e using induct with
  | call s receiver name args hreceiver hargs =>
    have hall : (args.map bare).map ruled = args.map ruled := by
      rw [List.map_map]
      exact List.map_congr_left fun e he => hargs e he (breadth_bare e)
    rw [bare, bareAll_eq_map] at hbreadth ⊢
    rw [ruled, ruled, ruledAll_eq_map, ruledAll_eq_map, hbreadth, hall,
      hreceiver (breadth_bare receiver)]
  | field s receiver name hreceiver =>
    rw [bare] at hbreadth ⊢
    rw [ruled, ruled, hbreadth, hreceiver (breadth_bare receiver)]
  | unary s op operand hoperand =>
    rw [bare] at hbreadth ⊢
    rw [ruled, ruled, hbreadth, hoperand (breadth_bare operand)]
  | paren s inner hinner =>
    rw [bare] at hbreadth ⊢
    rw [ruled, ruled, hbreadth, hinner (breadth_bare inner)]
  | binary s op left right hleft hright =>
    rw [bare] at hbreadth ⊢
    rw [ruled, ruled, hbreadth, hleft (breadth_bare left), hright (breadth_bare right)]
  | chain s op operands hoperands =>
    have hall : (operands.map bare).map ruled = operands.map ruled := by
      rw [List.map_map]
      exact List.map_congr_left fun e he => hoperands e he (breadth_bare e)
    rw [bare, bareAll_eq_map] at hbreadth ⊢
    rw [ruled, ruled, ruledAll_eq_map, ruledAll_eq_map, hbreadth, hall]
  | conditional s cond yes no hcond hyes hno =>
    rw [bare] at hbreadth ⊢
    rw [ruled, ruled, hbreadth, hcond (breadth_bare cond), hyes (breadth_bare yes),
      hno (breadth_bare no)]
  | _ => rfl

/-! ### The flag of an even tree -/

/-- What moves depends on the profiles of the operands only. -/
theorem moved_map {es : List Expr} {g : Expr → Expr} (h : ∀ e ∈ es, (g e).profile = e.profile)
    (op : BinaryOp) :
    (arrangement policy op (es.map g)).moved = (arrangement policy op es).moved := by
  -- both are arrangements of the same trees with their profiles, carried over to other payloads
  let xs : List (Operand Expr) := es.map fun e => ⟨e.profile, e⟩
  have hcarried : ∀ f : Expr → Expr, (∀ e ∈ es, (f e).profile = e.profile) →
      (arrangement policy op (es.map f)).moved = (arrange policy op xs).moved := by
    intro f hf
    have hkeeps : Arrangement.KeepsOutlines (fun x => judged policy (f x.item)) xs := by
      intro x hx
      obtain ⟨e, he, rfl⟩ := List.mem_map.mp hx
      exact congrArg Profile.outline (hf e he)
    have hmap : (es.map f).map (judged policy) = xs.map fun x => judged policy (f x.item) := by
      simp only [xs, List.map_map]
      rfl
    rw [arrangement, hmap, arrange_map policy op _ xs hkeeps]
    rfl
  have hself := hcarried id fun _ _ => rfl
  rw [List.map_id] at hself
  rw [hcarried g h, hself]

/-- If no operand cares about being ruled, the operands together do not. -/
theorem any_changed_ruled {es : List Expr}
    (h : ∀ e ∈ es, (e.ruled.canonical policy).changed = (e.canonical policy).changed) :
    (es.map ruled).any (fun e => (e.canonical policy).changed) =
      es.any fun e => (e.canonical policy).changed := by
  have hflags : es.map (fun e => (e.ruled.canonical policy).changed) =
      es.map fun e => (e.canonical policy).changed := List.map_congr_left h
  have hany := congrArg (List.any · id) hflags
  rw [List.any_map, List.any_map] at hany
  rw [List.any_map]
  exact hany

/-- **Whether an infix node changes** is the same once it is ruled, if its operands span their
breadths: only lengths of spans are compared. -/
theorem changed_ruled_join (s : Span) (op : BinaryOp) {es : List Expr}
    (heven : ∀ e ∈ es, e.span.length = e.breadth)
    (h : ∀ e ∈ es, (e.ruled.canonical policy).changed = (e.canonical policy).changed) :
    ((join s op es).ruled.canonical policy).changed =
      ((join s op es).canonical policy).changed := by
  have hmoved := moved_map policy (fun e he => profile_ruled (heven e he)) op
  rw [ruled_join, canonical_join, canonical_join, hmoved, any_changed_ruled policy h]

/-- **An even tree is changed if and only if the ruled one is.** -/
theorem changed_ruled (e : Expr) (h : e.Even) :
    (e.ruled.canonical policy).changed = (e.canonical policy).changed := by
  have hc := descends_canonical policy
  -- what is even is sized by its breadth, so it is moved in the same way when ruled
  induction e using induct with
  | absent => rfl
  | error s => rfl
  | literal s kind text => rfl
  | ident s name => rfl
  | call s receiver name args hreceiver hargs =>
    obtain ⟨-, hr, has⟩ := h
    rw [everyOf_iff] at has
    have hany := any_changed_ruled policy fun e he => hargs e he (has e he)
    rw [ruled, ruledAll_eq_map, hc.call, hc.call, hreceiver hr, hany]
  | field s receiver name hreceiver => exact hreceiver h.2
  | unary s op operand hoperand => exact hoperand h.2
  | paren s inner hinner => exact hinner h.2
  | binary s op left right hleft hright =>
    obtain ⟨heven, hl, hr⟩ := h
    exact changed_ruled_join policy s op heven (forall_mem_pair (hleft hl) (hright hr))
  | chain s op operands hoperands =>
    obtain ⟨heven, hmembers⟩ := h
    rw [everyOf_iff] at hmembers
    have hjoin := changed_ruled_join policy s op heven fun e he => hoperands e he (hmembers e he)
    rw [ruled_join, breadth_join] at hjoin
    rw [ruled, ruledAll_eq_map, canonical_chain, canonical_chain, breadth]
    exact hjoin
  | conditional s cond yes no hcond hyes hno =>
    obtain ⟨-, hc', hy, hn⟩ := h
    rw [ruled, hc.conditional, hc.conditional]
    simp only [hcond hc', hyes hy, hno hn]

/-- **Even trees that differ in the places of their nodes only** are changed alike. -/
theorem changed_congr {e e' : Expr} (h : e.Even) (h' : e'.Even) (hbare : e.bare = e'.bare) :
    (e.canonical policy).changed = (e'.canonical policy).changed := by
  have hruled : e.ruled = e'.ruled := by rw [← ruled_bare e, hbare, ruled_bare e']
  rw [← changed_ruled policy e h, hruled, changed_ruled policy e' h']

end Expr

end OperandOrder
