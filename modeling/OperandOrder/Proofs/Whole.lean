import OperandOrder.Proofs.Canonical

/-!
# Whole trees

A tree is *whole* when nothing is missing in it: there is no `error` in it, and nothing is `absent`
but the receiver of a plain call. Besides, a chain has three operands or more, as the node of two
operands is a binary one. `Expr.IsWhole` also takes what the names and the texts of literals have to
be like.

Reordering keeps trees whole, since the operands of a node are moved and never dropped
(`Expr.isWhole_canonical`, `Expr.isWhole_reorderWithin`).
-/

namespace OperandOrder

namespace Expr

section Definition

variable (names : String → Prop) (literals : LiteralKind → String → Prop)

mutual

/-- **A whole tree,** with names and literals as asked for. -/
def IsWhole : Expr → Prop
  | .absent | .error _ => False
  | .literal _ kind text => literals kind text
  | .ident _ name => names name
  | .call _ receiver name args =>
    (receiver = .absent ∨ receiver.IsWhole) ∧ names name ∧ AreWhole args
  | .field _ receiver name => receiver.IsWhole ∧ names name
  | .unary _ _ operand => operand.IsWhole
  | .paren _ inner => inner.IsWhole
  | .binary _ _ left right => left.IsWhole ∧ right.IsWhole
  | .chain _ _ operands => 3 ≤ operands.length ∧ AreWhole operands
  | .conditional _ cond yes no => cond.IsWhole ∧ yes.IsWhole ∧ no.IsWhole

/-- The same for several trees. -/
def AreWhole : List Expr → Prop
  | [] => True
  | e :: es => e.IsWhole ∧ AreWhole es

end

end Definition

variable {names : String → Prop} {literals : LiteralKind → String → Prop}

theorem areWhole_iff {es : List Expr} :
    AreWhole names literals es ↔ ∀ e ∈ es, e.IsWhole names literals := by
  induction es with
  | nil => simp [AreWhole]
  | cons e es ih => rw [AreWhole, ih, List.forall_mem_cons]

/-- An infix node of at least two operands is whole if they are. -/
theorem isWhole_join {s : Span} {op : BinaryOp} {es : List Expr} (hlength : 2 ≤ es.length) :
    (join s op es).IsWhole names literals ↔ ∀ e ∈ es, e.IsWhole names literals := by
  match es, hlength with
  | [left, right], _ => simp [join, IsWhole]
  | x :: y :: z :: es, _ =>
    rw [← areWhole_iff]
    exact and_iff_right (by simp)

/-! ### Reordering -/

variable (policy : Policy)

/-- The operands of a node are moved, and all of them stay. -/
theorem isWhole_canonical_join (s : Span) (op : BinaryOp) {es : List Expr} (hlength : 2 ≤ es.length)
    (h : ∀ e ∈ es, (e.canonical policy).expr.IsWhole names literals) :
    ((join s op es).canonical policy).expr.IsWhole names literals := by
  have hperm := arrangement_perm policy op es
  have hsame : (arrangement policy op es).operands.length = es.length := by
    rw [hperm.length_eq, List.length_map]
  rw [canonical_join]
  -- an operand of the arrangement is the canonical form of one of the given trees
  refine (isWhole_join (by rwa [List.length_map, hsame])).mpr fun x hx => ?_
  obtain ⟨operand, hoperand, rfl⟩ := List.mem_map.mp hx
  obtain ⟨e, he, rfl⟩ := mem_arrangement policy hoperand
  exact h e he

/-- **What goes down a tree keeps it whole,** if that is so at infix nodes. -/
theorem Descends.isWhole {f : Expr → Outcome} (hf : Descends f)
    (hinfixed : ∀ e : Expr, e.infixed?.isSome = true → e.IsWhole names literals →
      (∀ x ∈ e.operands, (f x).expr.IsWhole names literals) → (f e).expr.IsWhole names literals)
    (e : Expr) (h : e.IsWhole names literals) : (f e).expr.IsWhole names literals := by
  induction e using induct with
  | absent => exact h.elim
  | error s => exact h.elim
  | literal s kind text =>
    rw [hf.literal]
    exact h
  | ident s name =>
    rw [hf.ident]
    exact h
  | call s receiver name args hreceiver hargs =>
    obtain ⟨hwhole, hname, hwholes⟩ := h
    rw [hf.call]
    refine ⟨?_, hname, areWhole_iff.mpr (List.forall_mem_map.mpr fun e he =>
      hargs e he (areWhole_iff.mp hwholes e he))⟩
    -- the receiver of a plain call is absent before and after
    rcases hwhole with rfl | hwhole
    · exact .inl (by rw [hf.absent])
    · exact .inr (hreceiver hwhole)
  | field s receiver name hreceiver =>
    rw [hf.field]
    exact ⟨hreceiver h.1, h.2⟩
  | unary s op operand hoperand =>
    rw [hf.unary]
    exact hoperand h
  | paren s inner hinner =>
    rw [hf.paren]
    exact hinner h
  | binary s op left right hleft hright =>
    exact hinfixed _ rfl h (forall_mem_pair (hleft h.1) (hright h.2))
  | chain s op operands hoperands =>
    exact hinfixed _ rfl h fun e he => hoperands e he (areWhole_iff.mp h.2 e he)
  | conditional s cond yes no hcond hyes hno =>
    rw [hf.conditional]
    exact ⟨hcond h.1, hyes h.2.1, hno h.2.2⟩

/-- **Canonical form keeps a tree whole.** The operands change places, and each of them is whole. -/
theorem isWhole_canonical (e : Expr) (h : e.IsWhole names literals) :
    (e.canonical policy).expr.IsWhole names literals := by
  refine (descends_canonical policy).isWhole (fun e hinfixed h hoperands => ?_) e h
  cases e with
  | binary s op left right =>
    have hlength : 2 ≤ [left, right].length := Nat.le_refl 2
    exact isWhole_canonical_join policy s op hlength hoperands
  | chain s op operands =>
    obtain ⟨hlength, -⟩ := h
    rw [canonical_chain]
    exact isWhole_canonical_join policy s op (by omega) hoperands
  | _ => exact absurd hinfixed Bool.false_ne_true

/-- **Reordering within a range keeps a tree whole.** A node that is selected is put in canonical
form, and any other is rebuilt from its operands. -/
theorem isWhole_reorderWithin (range : Span) (e : Expr) (h : e.IsWhole names literals) :
    (e.reorderWithin policy range).expr.IsWhole names literals := by
  refine (descends_reorderWithin policy range).isWhole (fun e hinfixed h hoperands => ?_) e h
  by_cases hselected : e.isSelected range = true
  · rw [reorderWithin_of_selected policy range hselected]
    exact isWhole_canonical policy e h
  have hselected : e.isSelected range = false := eq_false_of_ne_true hselected
  cases e with
  | binary s op left right =>
    rw [reorderWithin_binary_of_not_selected policy range hselected]
    obtain ⟨hleft, hright⟩ := List.forall_mem_cons.mp hoperands
    exact ⟨hleft, hright right (List.mem_singleton_self right)⟩
  | chain s op operands =>
    rw [reorderWithin_chain_of_not_selected policy range hselected]
    exact ⟨by simpa using h.1, areWhole_iff.mpr (List.forall_mem_map.mpr hoperands)⟩
  | _ => exact absurd hinfixed Bool.false_ne_true

end Expr

end OperandOrder
