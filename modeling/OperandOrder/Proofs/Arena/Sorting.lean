import OperandOrder.Arena.Reorder
import OperandOrder.Proofs.Arena.Reading
import OperandOrder.Proofs.Canonical

/-!
# Sorting operands in an arena

Operands are sorted as places of a list, each compared where it has just been written. Where none of
them is missing no place is looked up in vain: a sweep has as many pairs as there are neighbours
(`Arena.sweepAt?_eq`), there is a last place wherever there is a sweep (`Arena.bubble?_eq`), and the
first two places are looked at only if there are two. What comes out is the arrangement of the
operands (`Arena.arrange?_eq`).

An arrangement looks at the outlines of the operands, which canonical form keeps. So it does not
matter that the operands are compared in canonical form here and as they were given in `arrange`.
-/

namespace OperandOrder

namespace Arrangement

variable {α : Type} (policy : Policy)

/-- What was reported before is reported after. -/
theorem swapFront_moved (s : Arrangement α) :
    s.swapFront policy = { swapFront policy { s with moved := false } with
      moved := s.moved || (swapFront policy { s with moved := false }).moved } := by
  obtain ⟨op, operands, moved⟩ := s
  match operands with
  | [] => simp [swapFront]
  | [_] => simp [swapFront]
  | x :: y :: rest =>
    by_cases h : policy.swapsFront op x.profile y.profile = true
    · simp [swapFront, h]
    · simp [swapFront, h]

/-- What was reported before the passes is reported after them. -/
theorem sortChain_moved (s : Arrangement α) :
    s.sortChain policy = { sortChain policy ⟨s.op, s.operands, false⟩ with
      moved := s.moved || (sortChain policy ⟨s.op, s.operands, false⟩).moved } := by
  simp only [sortChain]
  rw [swapFront_moved, swapFront_moved policy (bubbleBy _ (bubbleBy _ ⟨s.op, s.operands, false⟩))]
  simp [bubbleBy, Bool.or_assoc]

end Arrangement

namespace Arena

/-! ### Sweeps by places -/

section Sweeps

variable {α : Type} {f : α → Ref} {swaps? : Ref → Ref → Option Bool} {swaps : α → α → Bool}

/-- **A sweep by places** carries its element along: `done` stands before it, and nothing behind the
last place is looked up. -/
theorem sweepAt?_eq (done : List Ref) (x : α) (rest : List α)
    (h : ∀ y ∈ x :: rest, ∀ z ∈ x :: rest, swaps? (f y) (f z) = some (swaps y z)) :
    sweepAt? swaps? rest.length done.length (done ++ (x :: rest).map f) =
      some (done ++ (sweepFrom swaps x rest).1.map f, (sweepFrom swaps x rest).2) := by
  -- the elements that the sweep has left behind are `done`, so the place it is at is their number
  induction rest generalizing done x with
  | nil => rfl
  | cons y ys ih =>
    have hx : (done ++ (x :: y :: ys).map f)[done.length]? = some (f x) := by simp
    have hy : (done ++ (x :: y :: ys).map f)[done.length + 1]? = some (f y) := by simp
    have hmem : ∀ z, z ∈ x :: y :: ys → ∀ w, w ∈ x :: y :: ys →
        swaps? (f z) (f w) = some (swaps z w) :=
      fun z hz w hw => h z hz w hw
    rw [List.length_cons, sweepAt?]
    simp only [hx, hy, h x (by simp) y (by simp), Option.bind_eq_bind, Option.bind_some]
    by_cases hxy : swaps x y = true
    · -- `x` is carried past `y`
      have hset : ((done ++ (x :: y :: ys).map f).set done.length (f y)).set
          (done.length + 1) (f x) = (done ++ [f y]) ++ (x :: ys).map f := by
        simp
      have hlater := ih (done ++ [f y]) x fun z hz w hw => hmem z (by grind) w (by grind)
      rw [List.length_append, List.length_singleton] at hlater
      rw [if_pos hxy, hset, hlater, sweepFrom_cons_of_swaps ys hxy]
      simp
    · have hsame : done ++ (x :: y :: ys).map f = (done ++ [f x]) ++ (y :: ys).map f := by simp
      have hlater := ih (done ++ [f x]) y fun z hz w hw => hmem z (by grind) w (by grind)
      rw [List.length_append, List.length_singleton] at hlater
      rw [if_neg hxy, hsame, hlater, sweepFrom_cons_of_not_swaps ys (by simpa using hxy)]
      simp

/-- **Sweeps over places are sweeps over operands,** if each test has the answer that the operands
give. -/
theorem sweepTimes?_eq (n : Nat) {xs : List α} (hxs : xs ≠ [])
    (h : ∀ y ∈ xs, ∀ z ∈ xs, swaps? (f y) (f z) = some (swaps y z)) :
    sweepTimes? swaps? n (xs.map f) =
      some ((sweepTimes swaps n xs).1.map f, (sweepTimes swaps n xs).2) := by
  induction n generalizing xs with
  | zero => rfl
  | succ n ih =>
    obtain ⟨x, rest, rfl⟩ := List.exists_cons_of_ne_nil hxs
    -- a list that is not empty has a predecessor of its length to count down from
    have hpairs : pred? ((x :: rest).map f).length = some rest.length := by simp [pred?]
    have honce : sweepAt? swaps? rest.length 0 ((x :: rest).map f) =
        some ((sweep swaps (x :: rest)).1.map f, (sweep swaps (x :: rest)).2) :=
      sweepAt?_eq [] x rest h
    rw [sweepTimes?]
    simp only [hpairs, honce, Option.bind_eq_bind, Option.bind_some]
    by_cases hswept : (sweep swaps (x :: rest)).2 = true
    · -- the next sweep meets the same elements
      have hperm : (sweep swaps (x :: rest)).1.Perm (x :: rest) := sweep_perm _
      have hne : (sweep swaps (x :: rest)).1 ≠ [] := fun hnil => hxs (hnil ▸ hperm).nil_eq.symm
      rw [if_pos hswept, ih hne fun y hy z hz => h y (hperm.mem_iff.mp hy) z (hperm.mem_iff.mp hz),
        sweepTimes_succ_of_swept hswept]
      rfl
    · have hstill : (sweep swaps (x :: rest)).2 = false := by simpa using hswept
      rw [if_neg hswept, sweepTimes_succ_of_still hstill,
        sweep_of_settled _ (settled_of_sweep _ hstill)]

/-- **Bubbling by places.** There is no sweep over an empty list. -/
theorem bubble?_eq {xs : List α} (h : ∀ y ∈ xs, ∀ z ∈ xs, swaps? (f y) (f z) = some (swaps y z)) :
    bubble? swaps? (xs.map f) = some ((bubble swaps xs).1.map f, (bubble swaps xs).2) := by
  rw [bubble?, bubble, List.length_map]
  cases xs with
  | nil => rfl
  | cons x xs => exact sweepTimes?_eq _ (List.cons_ne_nil x xs) h

end Sweeps

/-! ### The orders -/

/-- **What an operand stands for** is in the arena: a tree that is there, with the outline of
the profile. -/
def Shows (a : Arena) (x : Operand Ref) : Prop :=
  ∃ d, a.tree? x.item = some d ∧ d.profile.outline = x.profile.outline ∧ d.form.isMissing = false

section Orders

variable {a : Arena} (ha : a.Listed) (policy : Policy) (op : BinaryOp) {x y : Operand Ref}

include ha

theorem form?_of_present {r : Ref} {d : Expr} (hd : a.tree? r = some d)
    (hpresent : d.form.isMissing = false) : a.form? r = some d.form := by
  obtain ⟨i, rfl⟩ := exists_cell hd (by simp [hpresent])
  exact form?_of_tree ha hd

/-- Whether two operands trade places is read off the arena. -/
theorem swapsFront?_eq (hx : a.Shows x) (hy : a.Shows y) :
    a.swapsFront? policy op x.item y.item = some (policy.swapsFront op x.profile y.profile) := by
  obtain ⟨d, hd, hdo, hdm⟩ := hx
  obtain ⟨e, he, heo, hem⟩ := hy
  rw [← Policy.swapsFront_outline, ← hdo, ← heo, Policy.swapsFront_outline]
  simp only [swapsFront?, isLarger?_eq ha hd he, form?_of_present ha hd hdm,
    form?_of_present ha he hem, Option.bind_eq_bind, Option.bind_some, Policy.swapsFront]
  cases d.profile.isLarger e.profile <;> rfl

/-- Whether a call steps back is read off the arena. -/
theorem sinksBack?_eq (hx : a.Shows x) (hy : a.Shows y) :
    a.sinksBack? policy op x.item y.item = some (policy.sinksBack op x.profile y.profile) := by
  obtain ⟨d, hd, hdo, hdm⟩ := hx
  obtain ⟨e, he, heo, hem⟩ := hy
  rw [← Policy.sinksBack_outline, ← hdo, ← heo, Policy.sinksBack_outline]
  simp only [sinksBack?, form?_of_present ha hd hdm, form?_of_present ha he hem,
    Option.bind_eq_bind, Option.bind_some, Policy.sinksBack, Expr.profile]
  cases d.form.isCall <;> rfl

/-- Whether an operand outgrows its neighbour is read off the arena. -/
theorem outgrows?_eq (hx : a.Shows x) (hy : a.Shows y) :
    a.outgrows? policy op x.item y.item = some (policy.outgrows op x.profile y.profile) := by
  obtain ⟨d, hd, hdo, hdm⟩ := hx
  obtain ⟨e, he, heo, hem⟩ := hy
  have hmovable : ∀ {r : Ref} {d : Expr}, a.tree? r = some d → d.form.isMissing = false →
      a.movable? policy op r = some (policy.movable op d.profile) := by
    intro r d hd hdm
    simp only [movable?, form?_of_present ha hd hdm, Option.bind_eq_bind, Option.bind_some]
    rfl
  rw [← Policy.outgrows_outline, ← hdo, ← heo, Policy.outgrows_outline]
  simp only [outgrows?, hmovable hd hdm, hmovable he hem, isLarger?_eq ha hd he,
    Option.bind_eq_bind, Option.bind_some, Policy.outgrows]
  cases policy.movable op d.profile <;> cases policy.movable op e.profile <;> rfl

end Orders

/-! ### Arranging -/

/-- An arrangement of references. -/
def Sorted.of (s : Arrangement Ref) : Sorted := ⟨s.op, s.operands.map (·.item), s.moved⟩

section Arranging

variable {a : Arena} (ha : a.Listed) (policy : Policy)

include ha

/-- **The swap in front** has an answer, the one for what the arena shows. -/
theorem swapFront?_eq {s : Arrangement Ref} (hlength : 2 ≤ s.operands.length)
    (hs : ∀ x ∈ s.operands, a.Shows x) :
    a.swapFront? policy (.of s) = some (.of (s.swapFront policy)) := by
  obtain ⟨op, operands, moved⟩ := s
  match operands with
  | x :: y :: rest =>
    have hswaps := swapsFront?_eq ha policy op (hs x (by simp)) (hs y (by simp))
    simp only [swapFront?, Sorted.of, List.map_cons, List.getElem?_cons_zero,
      List.getElem?_cons_succ, hswaps, Option.bind_eq_bind, Option.bind_some, Arrangement.swapFront]
    split <;> simp [*]

/-- **The passes over a chain** have an answer, the one for what the arena shows. The swap at their
end looks at operands that the passes have moved, which the arena shows as before. -/
theorem sortChain?_eq {op : BinaryOp} (hop : op.isFlippable = true) {xs : List (Operand Ref)}
    (hlength : 2 < xs.length) (hxs : ∀ x ∈ xs, a.Shows x) :
    a.sortChain? policy op (xs.map (·.item)) =
      some (.of (Arrangement.sortChain policy ⟨op, xs, false⟩)) := by
  -- each sweep only reorders, so what is shown of the operands is shown of those it leaves
  set back :=
    bubble (fun x y : Operand Ref => policy.sinksBack op x.profile y.profile) xs with hbackdef
  have hback : bubble? (a.sinksBack? policy op) (xs.map (·.item)) =
      some (back.1.map (·.item), back.2) :=
    bubble?_eq fun x hx y hy => sinksBack?_eq ha policy op (hxs x hx) (hxs y hy)
  have hbackperm : back.1.Perm xs := bubble_perm xs
  have hbackshows : ∀ x ∈ back.1, a.Shows x := fun x hx => hxs x (hbackperm.mem_iff.mp hx)
  set sized :=
    bubble (fun x y : Operand Ref => policy.outgrows op x.profile y.profile) back.1 with hsizeddef
  have hsized : bubble? (a.outgrows? policy op) (back.1.map (·.item)) =
      some (sized.1.map (·.item), sized.2) :=
    bubble?_eq fun x hx y hy => outgrows?_eq ha policy op (hbackshows x hx) (hbackshows y hy)
  have hsizedperm : sized.1.Perm xs := (bubble_perm back.1).trans hbackperm
  have hfront := swapFront?_eq ha policy (s := ⟨op, sized.1, back.2 || sized.2⟩)
    (by rw [hsizedperm.length_eq]; omega) fun x hx => hxs x (hsizedperm.mem_iff.mp hx)
  -- the guard is on the list of references, which is as long
  have hshort : ¬(!op.isFlippable || (xs.map (·.item)).length < 3) = true := by
    simp [hop]
    omega
  rw [sortChain?, if_neg hshort]
  simp only [hback, hsized, Option.bind_eq_bind, Option.bind_some]
  refine hfront.trans ?_
  simp only [Arrangement.sortChain, Arrangement.bubbleBy, ← hbackdef, ← hsizeddef, Bool.false_or]

/-- The first two operands are looked at only if there are two. -/
theorem trySwap?_eq {op : BinaryOp} (hop : op.isFlippable = true) {xs : List (Operand Ref)}
    (hxs : ∀ x ∈ xs, a.Shows x) :
    a.trySwap? policy ⟨op, xs.map (·.item), false⟩ =
      some (.of (Arrangement.swapFront policy ⟨op, xs, false⟩)) := by
  simp only [trySwap?, List.length_map, hop, Bool.and_true, decide_eq_true_eq]
  split
  next htwo => exact swapFront?_eq ha policy (s := ⟨op, xs, false⟩) htwo hxs
  next hfew =>
    match xs with
    | [] => rfl
    | [x] => rfl
    | x :: y :: rest => exact absurd (by simp) hfew

omit ha in
theorem Shows.present {x : Operand Ref} (h : a.Shows x) : x.profile.form.isMissing = false := by
  obtain ⟨d, -, hdo, hdm⟩ := h
  have hform := congrArg (fun p => p.form.isMissing) hdo
  simp only [Profile.outline, Form.isMissing_outline] at hform
  exact hform.symm.trans hdm

/-- **Operands in an arena are arranged** as operands are, if none of them is missing. -/
theorem arrange?_eq (op : BinaryOp) {xs : List (Operand Ref)} (hxs : ∀ x ∈ xs, a.Shows x) :
    a.arrange? policy op (xs.map (·.item)) = some (.of (arrange policy op xs)) := by
  cases hop : op.isFlippable with
  | false =>
    -- nothing moves
    have hfixed : isFixed op xs = true := by simp [isFixed, hop]
    rw [arrange_of_isFixed policy op hfixed, arrange?]
    simp only [trySwap?, hop, Bool.and_false, Bool.false_eq_true, if_false, Option.bind_eq_bind,
      Option.bind_some]
    split <;> simp [sortChain?, hop, Sorted.of]
  | true =>
    have hfixed : isFixed op xs = false :=
      (isFixed_eq_false_iff op).mpr ⟨hop, fun x hx => (hxs x hx).present⟩
    have hfront := trySwap?_eq ha policy hop hxs
    have hfrontperm := Arrangement.swapFront_perm policy ⟨op, xs, false⟩
    have hfrontop := Arrangement.op_swapFront policy ⟨op, xs, false⟩
    rw [arrange_of_not_isFixed policy op hfixed, arrange?]
    set front := Arrangement.swapFront policy ⟨op, xs, false⟩
    have hlength : front.operands.length = xs.length := hfrontperm.length_eq
    simp only [hfront, Sorted.of, List.length_map, hlength, Option.bind_eq_bind, Option.bind_some]
    by_cases hthree : 2 < xs.length
    · have hflip : front.op.isFlippable = true := by
        rcases hfrontop with h | h <;> simp [h, hop]
      have hchain := sortChain?_eq ha policy hflip (hlength.symm ▸ hthree)
        fun x hx => hxs x (hfrontperm.mem_iff.mp hx)
      rw [if_pos hthree, if_pos hthree, hchain, Option.bind_some,
        Arrangement.sortChain_moved policy front]
      rfl
    · rw [if_neg hthree, if_neg hthree]

end Arranging

end Arena

end OperandOrder
