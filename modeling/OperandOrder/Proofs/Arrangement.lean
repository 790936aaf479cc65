import OperandOrder.Proofs.Sweeps

/-!
# What an arrangement does

Five facts about `arrange`, on which everything about canonical form rests:

* `arrange_perm` and `op_arrange`: the operands of an arrangement are the given ones in another
  order, and its operator is the given one or its converse;
* `arrange_of_unmoved`: where no move is reported, nothing has moved;
* `arrange_map`: it looks at the *outlines* of profiles only, so that operands may be exchanged for
  others of the same outline, whatever they carry;
* `arrange_arrange`: **an arrangement is arranged.** None of the four steps undoes another, although
  neither of the two orders is transitive and exempt operands stand in the way of both.

The outline of an operand forgets which operator it has if it is an infix node. That is all of a
profile that putting the operand in canonical form can change.
-/

namespace OperandOrder

/-! ### Outlines -/

/-- The form without the operator of an infix node. -/
def Form.outline : Form → Form
  | .infixed _ => .infixed .add
  | f => f

/-- **The outline of a profile:** what arranging looks at. -/
def Profile.outline (p : Profile) : Profile := { p with form := p.form.outline }

namespace Form

@[simp] theorem isMissing_outline (f : Form) : f.outline.isMissing = f.isMissing := by
  cases f <;> rfl

@[simp] theorem isCall_outline (f : Form) : f.outline.isCall = f.isCall := by
  cases f <;> rfl

@[simp] theorem args?_outline (f : Form) : f.outline.args? = f.args? := by
  cases f <;> rfl

@[simp] theorem literalKind?_outline (f : Form) : f.outline.literalKind? = f.literalKind? := by
  cases f <;> rfl

@[simp] theorem outline_beq_literal (f : Form) (kind : LiteralKind) :
    (f.outline == .literal kind) = (f == .literal kind) := by
  cases f <;> rfl

end Form

/-- Sizes are compared by what is in the outline. -/
@[simp] theorem Profile.isLarger_outline (a b : Profile) :
    a.outline.isLarger b.outline = a.isLarger b := by
  unfold isLarger outline
  simp only [Form.isMissing_outline, Form.args?_outline]

namespace Policy

variable (policy : Policy) (op : BinaryOp)

/-- Whether an operand is exempt is told from its outline. -/
@[simp] theorem exempts_outline (f : Form) : policy.exempts op f.outline = policy.exempts op f := by
  simp [exempts, Form.isLiteral]

/-- Whether an operand is exempt on the right is told from its outline. -/
@[simp] theorem exemptsRight_outline (f : Form) :
    policy.exemptsRight op f.outline = policy.exemptsRight op f := by
  simp [exemptsRight]

/-- Whether two operands are exempt as a pair is told from their outlines. -/
@[simp] theorem exemptsPair_outline (left right : Form) :
    policy.exemptsPair op left.outline right.outline = policy.exemptsPair op left right := by
  simp [exemptsPair]

/-- **The swap in front looks at outlines only.** -/
theorem swapsFront_outline (a b : Profile) :
    policy.swapsFront op a.outline b.outline = policy.swapsFront op a b := by
  simp [swapsFront, Profile.outline, ← Profile.isLarger_outline a b]

/-- **The pass over calls looks at outlines only.** -/
theorem sinksBack_outline (a b : Profile) :
    policy.sinksBack op a.outline b.outline = policy.sinksBack op a b := by
  simp [sinksBack, Profile.outline]

/-- **The pass over sizes looks at outlines only.** -/
theorem outgrows_outline (a b : Profile) :
    policy.outgrows op a.outline b.outline = policy.outgrows op a b := by
  simp [outgrows, movable, Profile.outline, ← Profile.isLarger_outline a b]

/-! ### The orders are asymmetric and do not see a flip of the operator -/

/-- Two operands that have traded places do not trade back. -/
theorem swapsFront_asymm (a b : Profile) (h : policy.swapsFront op a b = true) :
    policy.swapsFront op b a = false := by
  simp only [swapsFront, Bool.and_eq_true] at h
  simp [swapsFront, Profile.isLarger_asymm a b h.1]

/-- A call that has stepped back does not step forward. -/
theorem sinksBack_asymm : Asymmetric (policy.sinksBack op) := by
  intro a b h
  simp only [sinksBack, Bool.and_eq_true, Bool.not_eq_true'] at h
  simp [sinksBack, h.1.1.2]

/-- Of two operands, at most one outgrows the other. -/
theorem outgrows_asymm : Asymmetric (policy.outgrows op) := by
  intro a b h
  simp only [outgrows, Bool.and_eq_true] at h
  simp [outgrows, Profile.isLarger_asymm a b h.2]

/-- The swap in front takes an operator and its converse alike. -/
@[simp] theorem swapsFront_converse :
    policy.swapsFront op.converse = policy.swapsFront op := by
  funext a b
  simp [swapsFront]

@[simp] theorem sinksBack_converse : policy.sinksBack op.converse = policy.sinksBack op := by
  funext a b
  simp [sinksBack]

@[simp] theorem outgrows_converse : policy.outgrows op.converse = policy.outgrows op := by
  funext a b
  simp [outgrows, movable]

end Policy

/-! ### The steps only change the order -/

namespace Arrangement

variable {α β : Type} (policy : Policy)

/-- Operands that trade places turn the operator around. -/
theorem swapFront_of_swaps {op : BinaryOp} {x y : Operand α} {rest : List (Operand α)}
    {moved : Bool} (h : policy.swapsFront op x.profile y.profile = true) :
    swapFront policy ⟨op, x :: y :: rest, moved⟩ = ⟨op.converse, y :: x :: rest, true⟩ := by
  simp only [swapFront, h, if_true]

/-- Operands that stay leave the arrangement as it is. -/
theorem swapFront_of_not_swaps {op : BinaryOp} {x y : Operand α} {rest : List (Operand α)}
    {moved : Bool} (h : policy.swapsFront op x.profile y.profile = false) :
    swapFront policy ⟨op, x :: y :: rest, moved⟩ = ⟨op, x :: y :: rest, moved⟩ := by
  simp [swapFront, h]

/-- **What the swap in front can do:** nothing, or trade the first two operands and flip
the operator. -/
theorem swapFront_cases (a : Arrangement α) :
    a.swapFront policy = a ∨
      ∃ x y rest, a.operands = x :: y :: rest ∧ policy.swapsFront a.op x.profile y.profile = true ∧
        a.swapFront policy = ⟨a.op.converse, y :: x :: rest, true⟩ := by
  obtain ⟨op, operands, moved⟩ := a
  match operands with
  | [] => exact .inl rfl
  | [_] => exact .inl rfl
  | x :: y :: rest =>
    by_cases h : policy.swapsFront op x.profile y.profile = true
    · exact .inr ⟨x, y, rest, rfl, h, swapFront_of_swaps policy h⟩
    · exact .inl (swapFront_of_not_swaps policy (by simpa using h))

/-- The swap in front keeps the operands. -/
theorem swapFront_perm (a : Arrangement α) :
    (a.swapFront policy).operands.Perm a.operands := by
  rcases swapFront_cases policy a with h | ⟨x, y, rest, hops, -, h⟩
  · rw [h]
  · rw [h, hops]
    exact List.Perm.swap x y rest

theorem bubbleBy_perm (swaps : Profile → Profile → Bool) (a : Arrangement α) :
    (a.bubbleBy swaps).operands.Perm a.operands :=
  bubble_perm a.operands

/-- The passes over a chain keep its operands. -/
theorem sortChain_perm (a : Arrangement α) : (a.sortChain policy).operands.Perm a.operands := by
  unfold sortChain
  exact (swapFront_perm policy _).trans ((bubbleBy_perm _ _).trans (bubbleBy_perm _ _))

/-- The swap in front keeps the operator or turns it around. -/
theorem op_swapFront (a : Arrangement α) :
    (a.swapFront policy).op = a.op ∨ (a.swapFront policy).op = a.op.converse := by
  rcases swapFront_cases policy a with hsame | ⟨x, y, rest, -, -, hswapped⟩
  · exact .inl (by rw [hsame])
  · exact .inr (by rw [hswapped])

/-- What a flip of the operator does not change, the swap in front does not change. -/
theorem eq_of_op_swapFront {β : Type} {f : BinaryOp → β} (hf : ∀ op, f op.converse = f op)
    (a : Arrangement α) : f (a.swapFront policy).op = f a.op := by
  rcases op_swapFront policy a with hsame | hflipped
  · rw [hsame]
  · rw [hflipped, hf]

/-- The passes over a chain keep its operator or turn it around. -/
theorem op_sortChain (a : Arrangement α) :
    (a.sortChain policy).op = a.op ∨ (a.sortChain policy).op = a.op.converse :=
  op_swapFront policy ((a.bubbleBy _).bubbleBy _)

/-! ### A step that reports nothing does nothing

The flag is passed on from step to step and never taken back. -/

/-- **A swap that is not reported has not been made.** -/
theorem swapFront_of_unmoved {a : Arrangement α} (h : (a.swapFront policy).moved = false) :
    a.swapFront policy = a := by
  rcases swapFront_cases policy a with hsame | ⟨x, y, rest, -, -, hswapped⟩
  · exact hsame
  · rw [hswapped] at h
    exact absurd h (by simp)

/-- **A pass that reports nothing has changed nothing.** -/
theorem bubbleBy_of_unmoved {swaps : Profile → Profile → Bool} {a : Arrangement α}
    (h : (a.bubbleBy swaps).moved = false) : a.bubbleBy swaps = a := by
  obtain ⟨hearlier, hstill⟩ := Bool.or_eq_false_iff.mp h
  have hsame := sweepTimes_of_still hstill
  unfold bubbleBy bubble
  simp only [hsame, Bool.or_false]

/-- **Passes that report nothing have changed nothing.** The flag is never lowered, so none of the
three has reported anything. -/
theorem sortChain_of_unmoved {a : Arrangement α} (h : (a.sortChain policy).moved = false) :
    a.sortChain policy = a := by
  unfold sortChain at h ⊢
  -- from the last step back to the first one
  have hfront := swapFront_of_unmoved policy h
  rw [hfront] at h ⊢
  have hsized := bubbleBy_of_unmoved h
  rw [hsized] at h ⊢
  exact bubbleBy_of_unmoved h

/-! ### The steps look at outlines only -/

/-- The same arrangement of other operands. -/
def map (f : Operand α → Operand β) (a : Arrangement α) : Arrangement β :=
  ⟨a.op, a.operands.map f, a.moved⟩

/-- Operands that `f` exchanges for others of the same outline. -/
def KeepsOutlines (f : Operand α → Operand β) (xs : List (Operand α)) : Prop :=
  ∀ x ∈ xs, (f x).profile.outline = x.profile.outline

variable {f : Operand α → Operand β}

/-- Outlines that are kept are kept in any order. -/
theorem KeepsOutlines.perm {xs ys : List (Operand α)} (h : KeepsOutlines f xs)
    (hperm : ys.Perm xs) : KeepsOutlines f ys :=
  fun x hx => h x (hperm.mem_iff.mp hx)

/-- The swap in front does the same to operands with the same outlines. -/
theorem swapFront_map (a : Arrangement α) (h : KeepsOutlines f a.operands) :
    (a.map f).swapFront policy = (a.swapFront policy).map f := by
  obtain ⟨op, operands, moved⟩ := a
  match operands with
  | [] => rfl
  | [_] => rfl
  | x :: y :: rest =>
    have hx := h x (by simp)
    have hy := h y (by simp)
    have heq : policy.swapsFront op (f x).profile (f y).profile =
        policy.swapsFront op x.profile y.profile := by
      rw [← Policy.swapsFront_outline, hx, hy, Policy.swapsFront_outline]
    by_cases hswaps : policy.swapsFront op x.profile y.profile = true
    · rw [swapFront_of_swaps policy hswaps]
      exact swapFront_of_swaps policy (heq.trans hswaps)
    · have hswaps : policy.swapsFront op x.profile y.profile = false := by simpa using hswaps
      rw [swapFront_of_not_swaps policy hswaps]
      exact swapFront_of_not_swaps policy (heq.trans hswaps)

/-- A pass that looks at outlines only does the same to operands with the same outlines. -/
theorem bubbleBy_map (swaps : Profile → Profile → Bool)
    (houtline : ∀ p q : Profile, swaps p.outline q.outline = swaps p q) (a : Arrangement α)
    (h : KeepsOutlines f a.operands) : (a.map f).bubbleBy swaps = (a.bubbleBy swaps).map f := by
  unfold bubbleBy
  have hbubble : bubble (fun x y : Operand β => swaps x.profile y.profile) (a.operands.map f) =
      ((bubble (fun x y : Operand α => swaps x.profile y.profile) a.operands).1.map f,
        (bubble (fun x y : Operand α => swaps x.profile y.profile) a.operands).2) := by
    refine bubble_map f _ a.operands fun x hx y hy => ?_
    rw [← houtline, h x hx, h y hy, houtline]
  simp only [map, hbubble]

/-- The passes over a chain do the same to operands with the same outlines. -/
theorem sortChain_map (a : Arrangement α) (h : KeepsOutlines f a.operands) :
    (a.map f).sortChain policy = (a.sortChain policy).map f := by
  unfold sortChain
  -- each step is given the operands of the step before it, which are the same in another order
  have hback := h.perm (bubbleBy_perm (policy.sinksBack a.op) a)
  have hsized := hback.perm (bubbleBy_perm (policy.outgrows a.op) _)
  change (((a.map f).bubbleBy (policy.sinksBack a.op)).bubbleBy
    (policy.outgrows a.op)).swapFront policy = _
  rw [bubbleBy_map _ (policy.sinksBack_outline a.op) a h,
    bubbleBy_map _ (policy.outgrows_outline a.op) _ hback, swapFront_map policy _ hsized]

/-! ### The steps do not undo each other -/

/-- **Operands in order:** none of the steps would move anything. The two orders of neighbours are
looked at only where there are three operands or more. -/
structure InOrder (op : BinaryOp) (xs : List (Operand α)) : Prop where
  front : ∀ x y rest, xs = x :: y :: rest → policy.swapsFront op x.profile y.profile = false
  calls : 2 < xs.length → Settled (fun x y => policy.sinksBack op x.profile y.profile) xs
  sizes : 2 < xs.length → Settled (fun x y => policy.outgrows op x.profile y.profile) xs

/-- **After the swap in front, the first two operands are not to be swapped:** not even under the
converse operator, if it is the one they have now. -/
theorem front_swapFront (a : Arrangement α) :
    ∀ x y rest, (a.swapFront policy).operands = x :: y :: rest →
      policy.swapsFront (a.swapFront policy).op x.profile y.profile = false := by
  obtain ⟨op, operands, moved⟩ := a
  intro x y rest hops
  match operands with
  | [] => exact absurd hops (by simp [swapFront])
  | [_] => exact absurd hops (by simp [swapFront])
  | u :: v :: others =>
    by_cases hswaps : policy.swapsFront op u.profile v.profile = true
    · -- the two have just changed places, and a flip of the operator changes no answer
      rw [swapFront_of_swaps policy hswaps] at hops ⊢
      obtain ⟨rfl, rfl, rfl⟩ : v = x ∧ u = y ∧ others = rest := by simpa using hops
      rw [Policy.swapsFront_converse]
      exact policy.swapsFront_asymm op _ _ hswaps
    · have hswaps : policy.swapsFront op u.profile v.profile = false := by simpa using hswaps
      rw [swapFront_of_not_swaps policy hswaps] at hops ⊢
      obtain ⟨rfl, rfl, rfl⟩ : u = x ∧ v = y ∧ others = rest := by simpa using hops
      exact hswaps

/-- Trading the first two elements keeps a list settled if the one that steps back swaps with
nothing behind it. -/
theorem settled_trade {swaps : α → α → Bool} {x y : α} {rest : List α}
    (h : Settled swaps (x :: y :: rest)) (hyx : swaps y x = false) (hx : ∀ z, swaps x z = false) :
    Settled swaps (y :: x :: rest) := by
  obtain ⟨-, hrest⟩ := List.isChain_cons_cons.mp h
  exact List.IsChain.cons_cons hyx (List.IsChain.cons hrest.tail fun z _ => hx z)

/-- **The last swap re-enables nothing.** Where neighbours are settled in both orders, the first
operand can only step back if it is a literal that is exempt on the right: any other one that is
larger would have been moved by the order by size, and a call by the order of calls. Such a literal
takes no part in either order. -/
theorem settled_swapFront (a : Arrangement α)
    (hcalls : Settled (fun x y => policy.sinksBack a.op x.profile y.profile) a.operands)
    (hsizes : Settled (fun x y => policy.outgrows a.op x.profile y.profile) a.operands) :
    Settled (fun x y => policy.sinksBack a.op x.profile y.profile) (a.swapFront policy).operands ∧
      Settled (fun x y => policy.outgrows a.op x.profile y.profile)
        (a.swapFront policy).operands := by
  rcases swapFront_cases policy a with h | ⟨x, y, rest, hops, hswaps, h⟩
  · rw [h]
    exact ⟨hcalls, hsizes⟩
  · rw [h]
    rw [hops] at hcalls hsizes
    have hxy := (List.isChain_cons_cons.mp hcalls).1
    have hxy' := (List.isChain_cons_cons.mp hsizes).1
    simp only [Policy.swapsFront, Policy.exemptsPair, Bool.and_eq_true, Bool.not_eq_true',
      Bool.or_eq_false_iff] at hswaps
    obtain ⟨hlarger, ⟨⟨hpair, hx⟩, hy⟩, hright⟩ := hswaps
    -- `y` is no call, since calls are exempt on the right; so neither is `x`, or it would
    -- have sunk back
    have hycall : y.profile.form.isCall = false := by
      simp only [Policy.exemptsRight, Bool.or_eq_false_iff] at hright
      exact hright.1.1
    have hxcall : x.profile.form.isCall = false := by
      simpa [Policy.sinksBack, hycall, hx, hy] using hxy
    -- `x` outgrows `y` and did not pass it, so it is `x` that does not move
    have hymoves : policy.movable a.op y.profile = true := by
      simp [Policy.movable, hycall, hy, hright]
    have hxstays : policy.movable a.op x.profile = false := by
      simpa [Policy.outgrows, hymoves, hlarger] using hxy'
    refine ⟨settled_trade hcalls ?_ fun z => ?_, settled_trade hsizes ?_ fun z => ?_⟩
    · simp [Policy.sinksBack, hycall]
    · simp [Policy.sinksBack, hxcall]
    · simp [Policy.outgrows, hxstays]
    · simp [Policy.outgrows, hxstays]

/-- **The order by size keeps calls back.** It moves operands past each other only if neither is a
call nor exempt, and to the order of calls all of these look the same. -/
theorem settled_bubbleBy_outgrows (op : BinaryOp) (a : Arrangement α)
    (h : Settled (fun x y => policy.sinksBack op x.profile y.profile) a.operands) :
    Settled (fun x y => policy.sinksBack op x.profile y.profile)
      (a.bubbleBy (policy.outgrows op)).operands := by
  -- what the order of calls sees of an operand
  let view : Operand α → Bool × Bool :=
    fun x => (x.profile.form.isCall, policy.exempts op x.profile.form)
  let sinks : Bool × Bool → Bool × Bool → Bool := fun u v => u.1 && !v.1 && !u.2 && !v.2
  have hsinks : ∀ xs : List (Operand α),
      Settled (fun x y => policy.sinksBack op x.profile y.profile) xs ↔
        Settled sinks (xs.map view) :=
    fun xs => (List.isChain_map (R := fun u v => sinks u v = false) view).symm
  have hview : ∀ x y : Operand α, policy.outgrows op x.profile y.profile = true →
      view x = view y := by
    intro x y hxy
    simp only [Policy.outgrows, Policy.movable, Bool.and_eq_true, Bool.not_eq_true'] at hxy
    obtain ⟨⟨⟨⟨hx, hx'⟩, -⟩, ⟨hy, hy'⟩, -⟩, -⟩ := hxy
    simp only [view, hx, hx', hy, hy']
  rw [hsinks] at h ⊢
  rw [show (a.bubbleBy (policy.outgrows op)).operands.map view = a.operands.map view from
    map_bubble_eq view hview a.operands]
  exact h

/-- **All steps of the order of three or more operands but the last.** -/
def sized (a : Arrangement α) : Arrangement α :=
  (a.bubbleBy (policy.sinksBack a.op)).bubbleBy (policy.outgrows a.op)

theorem sortChain_eq (a : Arrangement α) : a.sortChain policy = (a.sized policy).swapFront policy :=
  rfl

/-- Both orders are settled by then. -/
theorem settled_sized (a : Arrangement α) :
    Settled (fun x y => policy.sinksBack a.op x.profile y.profile) (a.sized policy).operands ∧
      Settled (fun x y => policy.outgrows a.op x.profile y.profile) (a.sized policy).operands :=
  ⟨settled_bubbleBy_outgrows policy a.op _
      (settled_bubble (fun x y => policy.sinksBack_asymm a.op x.profile y.profile) a.operands),
    settled_bubble (fun x y => policy.outgrows_asymm a.op x.profile y.profile) _⟩

/-- The order of three or more operands leaves them in order. -/
theorem inOrder_sortChain (a : Arrangement α) :
    InOrder policy (a.sortChain policy).op (a.sortChain policy).operands := by
  rw [sortChain_eq]
  set sized := a.sized policy with hsized
  obtain ⟨hcalls, hsizes⟩ := settled_sized policy a
  obtain ⟨hcalls', hsizes'⟩ := settled_swapFront policy sized hcalls hsizes
  refine ⟨front_swapFront policy sized, fun _ => ?_, fun _ => ?_⟩
  · -- a flip of the operator is invisible to both orders
    rw [eq_of_op_swapFront policy policy.sinksBack_converse sized]
    exact hcalls'
  · rw [eq_of_op_swapFront policy policy.outgrows_converse sized]
    exact hsizes'

/-- Operands in order are not moved. -/
theorem swapFront_of_inOrder {op : BinaryOp} {xs : List (Operand α)} (h : InOrder policy op xs)
    (moved : Bool) : swapFront policy ⟨op, xs, moved⟩ = ⟨op, xs, moved⟩ := by
  match xs, h with
  | [], _ => rfl
  | [_], _ => rfl
  | x :: y :: rest, h => exact swapFront_of_not_swaps policy (h.front x y rest rfl)

/-- What is in order is left alone, whatever was reported before. -/
theorem sortChain_of_inOrder {op : BinaryOp} {xs : List (Operand α)} (h : InOrder policy op xs)
    (hlength : 2 < xs.length) (moved : Bool) :
    sortChain policy ⟨op, xs, moved⟩ = ⟨op, xs, moved⟩ := by
  simp only [sortChain, bubbleBy, bubble_of_settled xs (h.calls hlength),
    bubble_of_settled xs (h.sizes hlength), Bool.or_false, swapFront_of_inOrder policy h]

end Arrangement

/-! ### Arranging -/

section Arrange

open Arrangement

variable {α β : Type} (policy : Policy) (op : BinaryOp)

/-- Whether nothing can move: the operator is not flippable, or an operand is missing. -/
def isFixed (xs : List (Operand α)) : Bool :=
  !op.isFlippable || xs.any (·.profile.form.isMissing)

/-- Whether operands may move at all is told from the operator and from outlines. -/
theorem isFixed_eq_outlines (xs : List (Operand α)) :
    isFixed op xs =
      (!op.isFlippable || (xs.map (·.profile.outline)).any (·.form.isMissing)) := by
  simp [isFixed, List.any_map, Function.comp_def, Profile.outline]

/-- Operands may move under a flippable operator, if none is missing. -/
theorem isFixed_eq_false_iff {xs : List (Operand α)} : isFixed op xs = false ↔
    op.isFlippable = true ∧ ∀ x ∈ xs, x.profile.form.isMissing = false := by
  simp [isFixed]

/-- Operands that may not move stay as they are. -/
theorem arrange_of_isFixed {xs : List (Operand α)} (h : isFixed op xs = true) :
    arrange policy op xs = ⟨op, xs, false⟩ := by
  unfold isFixed at h
  rw [arrange, if_pos h]

/-- Operands that may move are swapped in front first; the passes are for chains. -/
theorem arrange_of_not_isFixed {xs : List (Operand α)} (h : isFixed op xs = false) :
    arrange policy op xs =
      if 2 < xs.length then (swapFront policy ⟨op, xs, false⟩).sortChain policy
      else swapFront policy ⟨op, xs, false⟩ := by
  unfold isFixed at h
  rw [arrange, if_neg (by rw [h]; exact Bool.false_ne_true)]

/-- **Arranging only changes the order.** -/
theorem arrange_perm (xs : List (Operand α)) : (arrange policy op xs).operands.Perm xs := by
  by_cases hfixed : isFixed op xs = true
  · rw [arrange_of_isFixed policy op hfixed]
  · rw [arrange_of_not_isFixed policy op (by simpa using hfixed)]
    split
    · exact (sortChain_perm policy _).trans (swapFront_perm policy _)
    · exact swapFront_perm policy _

/-- The operator is the given one or its converse. -/
theorem op_arrange (xs : List (Operand α)) :
    (arrange policy op xs).op = op ∨ (arrange policy op xs).op = op.converse := by
  by_cases hfixed : isFixed op xs = true
  · exact .inl (by rw [arrange_of_isFixed policy op hfixed])
  · rw [arrange_of_not_isFixed policy op (by simpa using hfixed)]
    have hfront := op_swapFront policy ⟨op, xs, false⟩
    split
    · have hchain := op_sortChain policy (swapFront policy ⟨op, xs, false⟩)
      -- two flips are none
      rcases hfront with hfront | hfront <;> rw [hfront] at hchain
      · exact hchain
      · rw [BinaryOp.converse_converse] at hchain
        exact hchain.symm
    · exact hfront

/-- **What is reported as unmoved is unmoved.** -/
theorem arrange_of_unmoved {xs : List (Operand α)} (h : (arrange policy op xs).moved = false) :
    arrange policy op xs = ⟨op, xs, false⟩ := by
  by_cases hfixed : isFixed op xs = true
  · exact arrange_of_isFixed policy op hfixed
  · rw [arrange_of_not_isFixed policy op (by simpa using hfixed)] at h ⊢
    split at h
    next hlength =>
      have hchain := sortChain_of_unmoved policy h
      rw [hchain] at h
      rw [if_pos hlength, hchain]
      exact swapFront_of_unmoved policy h
    next hlength =>
      rw [if_neg hlength]
      exact swapFront_of_unmoved policy h

/-- **Arranging looks at outlines only.** -/
theorem arrange_map (f : Operand α → Operand β) (xs : List (Operand α)) (h : KeepsOutlines f xs) :
    arrange policy op (xs.map f) = (arrange policy op xs).map f := by
  -- whether anything is arranged is told by outlines, and those are kept
  have hmissing : isFixed op (xs.map f) = isFixed op xs := by
    rw [isFixed_eq_outlines, isFixed_eq_outlines, List.map_map]
    exact congrArg (fun ps : List Profile => !op.isFlippable || ps.any (·.form.isMissing))
      (List.map_congr_left h)
  have hstart : swapFront policy ⟨op, xs.map f, false⟩ =
      (swapFront policy ⟨op, xs, false⟩).map f :=
    swapFront_map policy ⟨op, xs, false⟩ h
  by_cases hfixed : isFixed op xs = true
  · rw [arrange_of_isFixed policy op hfixed,
      arrange_of_isFixed policy op (hmissing.trans hfixed)]
    rfl
  · have hfixed : isFixed op xs = false := by simpa using hfixed
    rw [arrange_of_not_isFixed policy op hfixed,
      arrange_of_not_isFixed policy op (hmissing.trans hfixed), List.length_map, hstart]
    split
    · exact sortChain_map policy _ (h.perm (swapFront_perm policy _))
    · rfl

/-- Arranging leaves the operands in order, unless nothing can move at all. -/
theorem inOrder_arrange {xs : List (Operand α)} (h : isFixed op xs = false) :
    InOrder policy (arrange policy op xs).op (arrange policy op xs).operands := by
  rw [arrange_of_not_isFixed policy op h]
  split
  next => exact inOrder_sortChain policy _
  next hlength =>
    -- one or two operands: the orders of neighbours are not looked at
    have hshort : ¬ 2 < (swapFront policy (⟨op, xs, false⟩ : Arrangement α)).operands.length := by
      rw [(swapFront_perm policy _).length_eq]
      exact hlength
    exact ⟨front_swapFront policy _, fun h2 => absurd h2 hshort, fun h2 => absurd h2 hshort⟩

/-- Operands in order are left alone. -/
theorem arrange_of_inOrder {xs : List (Operand α)} (h : InOrder policy op xs) :
    arrange policy op xs = ⟨op, xs, false⟩ := by
  by_cases hfixed : isFixed op xs = true
  · exact arrange_of_isFixed policy op hfixed
  · rw [arrange_of_not_isFixed policy op (by simpa using hfixed), swapFront_of_inOrder policy h]
    split
    next hlength => exact sortChain_of_inOrder policy h hlength false
    next => rfl

/-- **An arrangement is arranged:** arranging once more moves nothing. -/
theorem arrange_arrange (xs : List (Operand α)) :
    arrange policy (arrange policy op xs).op (arrange policy op xs).operands =
      ⟨(arrange policy op xs).op, (arrange policy op xs).operands, false⟩ := by
  by_cases hfixed : isFixed op xs = true
  · -- what could not move the first time cannot move now
    rw [arrange_of_isFixed policy op hfixed]
    exact arrange_of_isFixed policy op hfixed
  · exact arrange_of_inOrder policy _ (inOrder_arrange policy op (by simpa using hfixed))

end Arrange

end OperandOrder
