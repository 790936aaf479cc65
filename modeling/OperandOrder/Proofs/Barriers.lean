import OperandOrder.Parser
import OperandOrder.Proofs.Exchanges
import OperandOrder.Proofs.Nodes
import OperandOrder.Proofs.Store.Reordering

/-!
# Exempt operands are barriers

An operand that is exempt in every position is never one of two that are exchanged
(`Policy.Passes.cause`). So nothing gets past it: it keeps its place, and what was on its left stays
on its left (`Exchanges.stays`). Of two operands that are exchanged the second is never a call, so
calls keep their order (`Exchanges.filter_eq`). That is all there is to it, whatever the four steps
do in between and however calls, literals and barriers are mixed.

To say of operands that may be equal which of them is where, they are arranged together with the
places they have (`Expr.placed`). `Expr.Barred` is what is said of one node, and
`Store.canonical?_barred` says it of all nodes of a stored tree.
-/

namespace OperandOrder

namespace Expr

/-! ### Operands with the places they had -/

/-- An operand together with its place. -/
def ranked (p : Expr × Nat) : Operand (Expr × Nat) := ⟨p.1.profile, p⟩

variable (policy : Policy) (op : BinaryOp) (es : List Expr)

/-- **The arrangement of operands that know their places.** -/
def traced : Arrangement (Expr × Nat) := arrange policy op (es.zipIdx.map ranked)

/-- **The operands in their new order,** each with the place it had. -/
def placed : List (Expr × Nat) := (traced policy op es).operands.map (·.item)

/-- The places they had are all that the operands carry, so nothing is exchanged for their sake. -/
theorem exchanges_placed :
    Exchanges (fun p q => policy.Passes op (ranked p) (ranked q)) es.zipIdx
      (placed policy op es) := by
  obtain ⟨order, hexchanges, hread⟩ :=
    (exchanges_arrange policy op (es.zipIdx.map ranked)).lift ranked rfl
  have horder : placed policy op es = order := by
    rw [placed, traced, ← hread, List.map_map]
    exact List.map_id order
  rwa [horder]

theorem placed_perm : (placed policy op es).Perm es.zipIdx := (exchanges_placed policy op es).perm

/-- **The operands in their new order, each in canonical form.** -/
theorem operands_arrangement :
    (arrangement policy op es).operands.map (·.item.expr) =
      (placed policy op es).map fun p => (p.1.canonical policy).expr := by
  -- an operand that knows its place has the profile of the tree it stands for
  have hkeeps : Arrangement.KeepsOutlines (fun x : Operand (Expr × Nat) => judged policy x.item.1)
      (es.zipIdx.map ranked) := by
    intro x hx
    obtain ⟨p, -, rfl⟩ := List.mem_map.mp hx
    rfl
  have hjudged : (es.zipIdx.map ranked).map (fun x => judged policy x.item.1) =
      es.map (judged policy) := by
    rw [List.map_map, ← List.zipIdx_map_fst 0 es, List.map_map, List.zipIdx_map_fst]
    rfl
  rw [arrangement, ← hjudged, arrange_map policy op _ _ hkeeps, placed, traced, List.map_map]
  exact List.map_map

/-! ### One node -/

/-- **Barriers.** Where the operands `es` of `op` end up, if `placed` lists them in their new order
with the places they had: none is lost or made up; an exempt one keeps its place, and those on its
left are the same; and the calls come in the order they had. -/
structure Barred (placed : List (Expr × Nat)) : Prop where
  perm : placed.Perm es.zipIdx
  exempt : ∀ i x, es[i]? = some x → policy.exempts op x.form = true →
    placed[i]? = some (x, i) ∧ (placed.take i).Perm (es.zipIdx.take i)
  calls : placed.filter (·.1.form.isCall) = es.zipIdx.filter (·.1.form.isCall)

/-- **Exempt operands are barriers.** -/
theorem barred_placed : Barred policy op es (placed policy op es) where
  perm := placed_perm policy op es
  exempt i x hget hexempt := by
    have hplace : es.zipIdx[i]? = some (x, i) := by simp [List.getElem?_zipIdx, hget]
    refine (exchanges_placed policy op es).stays hplace fun p q hpasses => ?_
    -- of two operands that are exchanged neither is exempt
    obtain ⟨-, -, hp, hq⟩ := hpasses.cause
    constructor
    · rintro rfl
      exact Bool.false_ne_true (hp.symm.trans hexempt)
    · rintro rfl
      exact Bool.false_ne_true (hq.symm.trans hexempt)
  calls := (exchanges_placed policy op es).filter_eq fun _ _ hpasses => .inr hpasses.cause.2.1

/-! ### The nodes of a canonical form -/

variable {policy op}

/-- An infix node is put in canonical form like its operands joined. -/
theorem canonical_of_infixed {x : Expr} (hop : x.infixed? = some op) :
    x.canonical policy = (join x.span op x.operands).canonical policy := by
  cases x with
  | binary s op' left right =>
    obtain rfl : op' = op := Option.some.inj hop
    rfl
  | chain s op' operands =>
    obtain rfl : op' = op := Option.some.inj hop
    exact canonical_chain policy s op' operands
  | _ => exact absurd hop nofun

theorem operands_canonical {x : Expr} (hop : x.infixed? = some op) :
    (x.canonical policy).expr.operands =
      (placed policy op x.operands).map fun p => (p.1.canonical policy).expr := by
  rw [canonical_of_infixed hop, canonical_join, operands_join, operands_arrangement]

/-- The operands in canonical form are among the children of the node in canonical form. -/
theorem mem_children_canonical_join {s : Span} {es : List Expr} {x : Expr} (hx : x ∈ es) :
    (x.canonical policy).expr ∈ ((join s op es).canonical policy).expr.children := by
  rw [canonical_join, children_join]
  have hmem : judged policy x ∈ (arrangement policy op es).operands :=
    (arrangement_perm policy op es).mem_iff.mpr (List.mem_map_of_mem hx)
  exact List.mem_map_of_mem (f := fun o : Operand Outcome => o.item.expr) hmem

/-- Only what is absent has an absent canonical form. -/
theorem eq_absent_of_canonical {e : Expr} (h : (e.canonical policy).expr = .absent) :
    e = .absent := by
  have hform := (keeps_canonical policy e).form
  rw [h] at hform
  cases e with
  | absent => rfl
  | _ => exact absurd hform nofun

/-- Canonical form moves no child out of its node. -/
theorem mem_children_canonical {e x : Expr} (hx : x ∈ e.children) :
    (x.canonical policy).expr ∈ (e.canonical policy).expr.children := by
  have hc := descends_canonical policy
  cases e with
  | call s receiver name args =>
    rw [hc.call, mem_children_call]
    -- a receiver that is there is there in canonical form, too
    rcases mem_children_call.mp hx with ⟨rfl, hpresent⟩ | hx
    · exact .inl ⟨rfl, mt eq_absent_of_canonical hpresent⟩
    · exact .inr (List.mem_map_of_mem (f := fun a : Expr => (a.canonical policy).expr) hx)
  | field s receiver name =>
    obtain rfl := List.mem_singleton.mp hx
    exact List.mem_singleton_self _
  | unary s op operand =>
    obtain rfl := List.mem_singleton.mp hx
    exact List.mem_singleton_self _
  | paren s inner =>
    obtain rfl := List.mem_singleton.mp hx
    exact List.mem_singleton_self _
  | binary s op left right => exact mem_children_canonical_join hx
  | chain s op operands =>
    rw [canonical_chain]
    exact mem_children_canonical_join hx
  | conditional s cond yes no =>
    rw [hc.conditional]
    exact List.mem_map_of_mem (f := fun a : Expr => (a.canonical policy).expr) hx
  | _ => exact absurd hx List.not_mem_nil

/-- **The canonical form of a node is a node of the canonical form.** -/
theorem HasNode.canonical {e x : Expr} (h : e.HasNode x) :
    (e.canonical policy).expr.HasNode (x.canonical policy).expr := by
  induction h with
  | self e => exact .self _
  | inner hchild _ ih => exact .inner (mem_children_canonical hchild) ih

end Expr

namespace Store

/-- **The infix nodes of a stored tree in canonical form,** and where their operands are. -/
theorem canonical?_placed (policy : Policy) {src : Store} {r : Ref} (hsrc : src.WellFormed)
    (hr : src.Holds r) (dst : Store) :
    ∃ (t : Store × Ref) (changed : Bool) (e e' : Expr), src.tree? r = some e ∧
      src.canonical? policy r dst = some (t, changed) ∧ t.1.tree? t.2 = some e' ∧
      ∀ x op, e.HasNode x → x.infixed? = some op → e'.HasNode (x.canonical policy).expr ∧
        (x.canonical policy).expr.operands =
          (Expr.placed policy op x.operands).map fun p => (p.1.canonical policy).expr := by
  obtain ⟨e, he⟩ := exists_tree? hsrc hr
  obtain ⟨t, ht, hread⟩ := canonical?_of_tree? policy he dst
  exact ⟨t, _, e, _, he, ht, hread, fun x op hx hop => ⟨hx.canonical, Expr.operands_canonical hop⟩⟩

/-- **Exempt operands are barriers, and calls keep their order.** A tree in a well-formed store has
a canonical form, and every infix node of the tree is found there in canonical form, its operands
placed so that the exempt ones are barriers. This holds of all infix nodes, those with missing
operands included. -/
theorem canonical?_barred (policy : Policy) {src : Store} {r : Ref} (hsrc : src.WellFormed)
    (hr : src.Holds r) (dst : Store) :
    ∃ (t : Store × Ref) (changed : Bool) (e e' : Expr), src.tree? r = some e ∧
      src.canonical? policy r dst = some (t, changed) ∧ t.1.tree? t.2 = some e' ∧
      ∀ x op, e.HasNode x → x.infixed? = some op → e'.HasNode (x.canonical policy).expr ∧
        ∃ placed : List (Expr × Nat),
          (x.canonical policy).expr.operands = placed.map (fun p => (p.1.canonical policy).expr) ∧
          Expr.Barred policy op x.operands placed := by
  obtain ⟨t, changed, e, e', he, ht, hread, hnodes⟩ := canonical?_placed policy hsrc hr dst
  refine ⟨t, changed, e, e', he, ht, hread, fun x op hx hop => ?_⟩
  obtain ⟨hnode, hoperands⟩ := hnodes x op hx hop
  exact ⟨hnode, _, hoperands, Expr.barred_placed policy op x.operands⟩

/-- `f() + "s" + cc + g() + a` comes out as `f() + "s" + a + cc + g()`. -/
theorem canonical?_barred_sample :
    let parsed := ofParsed (parse "f() + \"s\" + cc + g() + a").expr
    parsed.1.WellFormed ∧ parsed.1.Holds parsed.2 ∧
    ∃ (t : Store × Ref) (changed : Bool) (e e' : Expr), parsed.1.tree? parsed.2 = some e ∧
      parsed.1.canonical? .standard parsed.2 empty = some (t, changed) ∧ t.1.tree? t.2 = some e' ∧
      ∀ x op, e.HasNode x → x.infixed? = some op → e'.HasNode (x.canonical .standard).expr ∧
        ∃ placed : List (Expr × Nat),
          (x.canonical .standard).expr.operands =
            placed.map (fun p => (p.1.canonical .standard).expr) ∧
          Expr.Barred .standard op x.operands placed :=
  ⟨by decide +kernel, by decide +kernel,
    canonical?_barred .standard (by decide +kernel) (by decide +kernel) empty⟩

end Store

end OperandOrder
