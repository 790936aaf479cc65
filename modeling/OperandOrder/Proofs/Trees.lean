import Mathlib.Algebra.BigOperators.Group.List.Basic
import OperandOrder.Canonical

/-!
# Induction on trees

Functions on trees come in pairs, one on a tree and one on a list of trees. The second of a pair is
always a `map`, a sum or a conjunction over the list, so statements about trees need only an
induction in which the members of a list are covered by one hypothesis: `Expr.induct`.
-/

namespace OperandOrder

namespace Expr

/-- **Induction on a tree.** The operands of a chain and the arguments of a call are covered one by
one. -/
@[elab_as_elim]
theorem induct {motive : Expr → Prop} (absent : motive .absent) (error : ∀ s, motive (.error s))
    (literal : ∀ s kind text, motive (.literal s kind text))
    (ident : ∀ s name, motive (.ident s name))
    (call : ∀ s receiver name args, motive receiver → (∀ e ∈ args, motive e) →
      motive (.call s receiver name args))
    (field : ∀ s receiver name, motive receiver → motive (.field s receiver name))
    (unary : ∀ s op operand, motive operand → motive (.unary s op operand))
    (paren : ∀ s inner, motive inner → motive (.paren s inner))
    (binary : ∀ s op left right, motive left → motive right → motive (.binary s op left right))
    (chain : ∀ s op operands, (∀ e ∈ operands, motive e) → motive (.chain s op operands))
    (conditional : ∀ s cond yes no, motive cond → motive yes → motive no →
      motive (.conditional s cond yes no)) (e : Expr) : motive e :=
  @Expr.rec motive (fun es => ∀ e ∈ es, motive e) absent error literal ident
    (fun s receiver name args hreceiver hargs => call s receiver name args hreceiver hargs)
    (fun s receiver name hreceiver => field s receiver name hreceiver)
    (fun s op operand hoperand => unary s op operand hoperand)
    (fun s inner hinner => paren s inner hinner)
    (fun s op left right hleft hright => binary s op left right hleft hright)
    (fun s op operands hoperands => chain s op operands hoperands)
    (fun s cond yes no hcond hyes hno => conditional s cond yes no hcond hyes hno)
    (fun e he => absurd he List.not_mem_nil)
    (fun e es he hes x hx => by
      rcases List.mem_cons.mp hx with rfl | hx
      · exact he
      · exact hes x hx) e

/-! ### Lists of trees -/

/-- The two operands of a binary node. -/
theorem forall_mem_pair {p : Expr → Prop} {left right : Expr} (hleft : p left) (hright : p right) :
    ∀ e ∈ [left, right], p e :=
  List.forall_mem_cons.mpr ⟨hleft, List.forall_mem_singleton.mpr hright⟩

/-- **A number of a list that its members add up to,** such as the number of nodes. -/
def Totals (total : List Expr → Nat) (f : Expr → Nat) : Prop :=
  ∀ e es, total (e :: es) = f e + total es

/-- A total does not see the order of the members. -/
theorem Totals.perm {total : List Expr → Nat} {f : Expr → Nat} (h : Totals total f)
    {as bs : List Expr} (hperm : (as.map f).Perm (bs.map f)) : total as = total bs := by
  have hfoldr : ∀ es, total es = (es.map f).foldr (· + ·) (total []) := by
    intro es
    induction es with
    | nil => rfl
    | cons e es ih => rw [h, ih, List.map_cons, List.foldr_cons]
  rw [hfoldr as, hfoldr bs]
  exact hperm.foldr_eq _

/-- The total of two lists, one behind the other. -/
theorem Totals.append {total : List Expr → Nat} {f : Expr → Nat} (h : Totals total f)
    (hnil : total [] = 0) (as bs : List Expr) : total (as ++ bs) = total as + total bs := by
  induction as with
  | nil => rw [List.nil_append, hnil, Nat.zero_add]
  | cons a as ih => rw [List.cons_append, h, ih, h, Nat.add_assoc]

/-- A total stays if the numbers of the members do. -/
theorem Totals.map {total : List Expr → Nat} {f : Expr → Nat} (h : Totals total f) {es : List Expr}
    {g : Expr → Expr} (hsame : ∀ e ∈ es, f (g e) = f e) : total (es.map g) = total es := by
  refine h.perm (.of_eq ?_)
  rw [List.map_map]
  exact List.map_congr_left hsame

theorem totals_weights : Totals weights weight := fun e es => by rw [weights]

/-- Trees of the same weights, in any order, weigh the same together. -/
theorem weights_eq_of_perm {as bs : List Expr} (h : (as.map weight).Perm (bs.map weight)) :
    weights as = weights bs :=
  totals_weights.perm h

theorem canonicalAll_eq_map (policy : Policy) (es : List Expr) :
    canonicalAll policy es = es.map (canonical policy) := by
  induction es with
  | nil => rfl
  | cons e es ih => rw [canonicalAll, ih, List.map_cons]

theorem reorderAllWithin_eq_map (policy : Policy) (range : Span) (es : List Expr) :
    reorderAllWithin policy range es = es.map (reorderWithin policy range) := by
  induction es with
  | nil => rfl
  | cons e es ih => rw [reorderAllWithin, ih, List.map_cons]

/-! ### Every node -/

mutual

/-- **What holds of every node of a tree.** -/
def Every (p : Expr → Prop) : Expr → Prop
  | .absent => p .absent
  | .error s => p (.error s)
  | .literal s kind text => p (.literal s kind text)
  | .ident s name => p (.ident s name)
  | .call s receiver name args =>
    p (.call s receiver name args) ∧ receiver.Every p ∧ EveryOf p args
  | .field s receiver name => p (.field s receiver name) ∧ receiver.Every p
  | .unary s op operand => p (.unary s op operand) ∧ operand.Every p
  | .paren s inner => p (.paren s inner) ∧ inner.Every p
  | .binary s op left right => p (.binary s op left right) ∧ left.Every p ∧ right.Every p
  | .chain s op operands => p (.chain s op operands) ∧ EveryOf p operands
  | .conditional s cond yes no =>
    p (.conditional s cond yes no) ∧ cond.Every p ∧ yes.Every p ∧ no.Every p

/-- The same for several trees. -/
def EveryOf (p : Expr → Prop) : List Expr → Prop
  | [] => True
  | e :: es => e.Every p ∧ EveryOf p es

end

theorem everyOf_iff (p : Expr → Prop) (es : List Expr) : EveryOf p es ↔ ∀ e ∈ es, e.Every p := by
  induction es with
  | nil => simp [EveryOf]
  | cons e es ih => rw [EveryOf, ih, List.forall_mem_cons]

/-- What holds of every node holds of the root. -/
theorem Every.self {p : Expr → Prop} {e : Expr} (h : e.Every p) : p e := by
  cases e with
  | absent => exact h
  | error s => exact h
  | literal s kind text => exact h
  | ident s name => exact h
  | _ => exact h.1

/-- What holds of every node can be weakened. -/
theorem Every.imp {p q : Expr → Prop} (h : ∀ x, p x → q x) {e : Expr} (he : e.Every p) :
    e.Every q := by
  induction e using Expr.induct with
  | call s receiver name args hreceiver hargs =>
    obtain ⟨hself, hr, has⟩ := he
    rw [everyOf_iff] at has
    exact ⟨h _ hself, hreceiver hr, (everyOf_iff q args).mpr fun x hx => hargs x hx (has x hx)⟩
  | field s receiver name hreceiver => exact ⟨h _ he.1, hreceiver he.2⟩
  | unary s op operand hoperand => exact ⟨h _ he.1, hoperand he.2⟩
  | paren s inner hinner => exact ⟨h _ he.1, hinner he.2⟩
  | binary s op left right hleft hright => exact ⟨h _ he.1, hleft he.2.1, hright he.2.2⟩
  | chain s op operands hoperands =>
    obtain ⟨hself, hes⟩ := he
    rw [everyOf_iff] at hes
    exact ⟨h _ hself, (everyOf_iff q operands).mpr fun x hx => hoperands x hx (hes x hx)⟩
  | conditional s cond yes no hcond hyes hno =>
    exact ⟨h _ he.1, hcond he.2.1, hyes he.2.2.1, hno he.2.2.2⟩
  | _ => exact h _ he

theorem form_eq_absent_iff {e : Expr} : e.form = .absent ↔ e = .absent := by
  cases e <;> simp [form]

/-! ### Joined operands

`join` makes a binary node of two operands and a chain of any other number. Read from outside, the
two look alike. -/

@[simp] theorem span_join (s : Span) (op : BinaryOp) (es : List Expr) :
    (join s op es).span = s := by
  unfold join
  split <;> rfl

@[simp] theorem form_join (s : Span) (op : BinaryOp) (es : List Expr) :
    (join s op es).form = .infixed op := by
  unfold join
  split <;> rfl

@[simp] theorem operands_join (s : Span) (op : BinaryOp) (es : List Expr) :
    (join s op es).operands = es := by
  unfold join
  split <;> rfl

/-- What holds of every node of an infix node holds of it and throughout its operands. -/
theorem every_join {p : Expr → Prop} {s : Span} {op : BinaryOp} {es : List Expr} :
    (join s op es).Every p ↔ p (join s op es) ∧ ∀ e ∈ es, e.Every p := by
  unfold join
  split
  · simp [Every]
  · rw [Every, everyOf_iff]

/-- An infix node weighs one more than its operands. -/
theorem weight_join (s : Span) (op : BinaryOp) (es : List Expr) :
    (join s op es).weight = 1 + weights es := by
  unfold join
  split
  · -- a binary node weighs as much as the chain of its two operands
    simp only [weight, weights]
    omega
  · rw [weight]

end Expr

/-- Items that come from the trees they stand for. -/
theorem Operand.measure_map {α : Type} (es : List Expr) (g : Expr → α) :
    Operand.measure es (es.map g) = es.map fun e => ⟨e.profile, g e⟩ := by
  induction es with
  | nil => rfl
  | cons e es ih =>
    rw [List.map_cons, List.map_cons, ← ih]
    rfl

end OperandOrder
