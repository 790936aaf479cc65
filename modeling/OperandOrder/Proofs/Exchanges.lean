import OperandOrder.Proofs.Arrangement

/-!
# Exchanges of neighbours

All that an arrangement does is to exchange neighbours. `Exchanges may xs ys` says that `ys` comes
of `xs` by exchanges of neighbours `x, y` with `may x y`, and an arrangement is one of them, for the
pairs that one of its steps looks for (`exchanges_arrange`).

The steps look at neighbours only, but what they do can be said of any two members, next to each
other or not. If `x` was before `y` and comes out behind it, then at some time the two were
neighbours and were exchanged, so `may x y` (`Exchanges.reorderedBy`). This is an invariant of
single exchanges: the property of pairs that it speaks of holds of `y, x` as soon as `may x y` holds
(`Exchanges.pairwise`), and the members are told apart by the places they had.
-/

namespace OperandOrder

/-- **Exchanges of neighbours,** one after the other. -/
inductive Exchanges {α : Type} (may : α → α → Prop) : List α → List α → Prop
  | refl (xs : List α) : Exchanges may xs xs
  | swap {x y : α} (rest : List α) (h : may x y) : Exchanges may (x :: y :: rest) (y :: x :: rest)
  | cons (x : α) {xs ys : List α} (h : Exchanges may xs ys) : Exchanges may (x :: xs) (x :: ys)
  | trans {xs ys zs : List α} (h : Exchanges may xs ys) (h' : Exchanges may ys zs) :
    Exchanges may xs zs

/-- **Reordered for a reason.** `ys` holds the members of `xs`, and one that stood before another
and comes out behind it has given way to it. Members are told apart by their places, so they may
be equal. -/
def ReorderedBy {α : Type} (gaveWay : α → α → Prop) (xs ys : List α) : Prop :=
  ∃ placed : List (α × Nat), placed.Perm xs.zipIdx ∧ placed.map Prod.fst = ys ∧
    placed.Pairwise fun x y => y.2 < x.2 → gaveWay y.1 x.1

/-- Nothing is lost, duplicated or made up. -/
theorem ReorderedBy.perm {α : Type} {gaveWay : α → α → Prop} {xs ys : List α}
    (h : ReorderedBy gaveWay xs ys) : ys.Perm xs := by
  obtain ⟨placed, hplaced, rfl, -⟩ := h
  simpa using hplaced.map Prod.fst

namespace Exchanges

variable {α β : Type} {may : α → α → Prop} {xs ys : List α}

/-- Exchanges keep the members. -/
theorem perm (h : Exchanges may xs ys) : ys.Perm xs := by
  induction h with
  | refl xs => exact .refl xs
  | @swap x y rest _ => exact .swap x y rest
  | cons x _ ih => exact ih.cons x
  | trans _ _ ih ih' => exact ih'.trans ih

/-- What may be exchanged may be exchanged under a wider rule. -/
theorem imp {may' : α → α → Prop} (hmay : ∀ x y, may x y → may' x y) (h : Exchanges may xs ys) :
    Exchanges may' xs ys := by
  induction h with
  | refl xs => exact .refl xs
  | swap rest h => exact .swap rest (hmay _ _ h)
  | cons x _ ih => exact .cons x ih
  | trans _ _ ih ih' => exact .trans ih ih'

/-- **What every exchange establishes** holds of all pairs, if it did so before. -/
theorem pairwise {R : α → α → Prop} (h : Exchanges may xs ys) (hR : ∀ x y, may x y → R y x)
    (hxs : xs.Pairwise R) : ys.Pairwise R := by
  induction h with
  | refl xs => exact hxs
  | @swap x y rest h =>
    obtain ⟨hx, hrest⟩ := List.pairwise_cons.mp hxs
    obtain ⟨hy, hrest⟩ := List.pairwise_cons.mp hrest
    obtain ⟨-, hx⟩ := List.forall_mem_cons.mp hx
    exact .cons (List.forall_mem_cons.mpr ⟨hR x y h, hy⟩) (.cons hx hrest)
  | cons x h ih =>
    obtain ⟨hx, hrest⟩ := List.pairwise_cons.mp hxs
    exact .cons (fun z hz => hx z (h.perm.mem_iff.mp hz)) (ih hrest)
  | trans _ _ ih ih' => exact ih' (ih hxs)

/-- **Members of which one of two gives way to no other** keep their order among themselves. -/
theorem filter_eq {marked : α → Bool} (h : Exchanges may xs ys)
    (hmay : ∀ x y, may x y → marked x = false ∨ marked y = false) :
    ys.filter marked = xs.filter marked := by
  induction h with
  | refl xs => rfl
  | @swap x y rest h =>
    -- only one of the two can be there, so it does not matter which one comes first
    rcases hmay x y h with hx | hy
    · simp [List.filter_cons, hx]
    · simp [List.filter_cons, hy]
  | cons x _ ih => rw [List.filter_cons, List.filter_cons, ih]
  | trans _ _ ih ih' => exact ih'.trans ih

/-- What a test picks out is exchanged among itself. -/
theorem filter (marked : α → Bool) (h : Exchanges may xs ys) :
    Exchanges (fun x y => may x y ∧ marked x = true ∧ marked y = true) (xs.filter marked)
      (ys.filter marked) := by
  induction h with
  | refl xs => exact .refl _
  | @swap x y rest h =>
    -- if one of the two is left out, the other one does not move
    by_cases hx : marked x = true <;> by_cases hy : marked y = true <;>
      simp only [List.filter_cons, hx, hy, if_true, Bool.false_eq_true, if_false]
    · exact .swap _ ⟨h, hx, hy⟩
    all_goals exact .refl _
  | cons x _ ih =>
    simp only [List.filter_cons]
    split
    · exact .cons x ih
    · exact ih
  | trans _ _ ih ih' => exact .trans ih ih'

/-- **A member that is never exchanged divides the list.** What is before it is exchanged there,
what is behind it is exchanged there, and nothing gets past it. -/
theorem divide {front behind : List α} {barrier : α}
    (h : Exchanges may (front ++ barrier :: behind) ys)
    (hstays : ∀ x y, may x y → x ≠ barrier ∧ y ≠ barrier) :
    ∃ front' behind', ys = front' ++ barrier :: behind' ∧ Exchanges may front front' ∧
      Exchanges may behind behind' := by
  generalize hxs : front ++ barrier :: behind = xs at h
  induction h generalizing front behind with
  | refl xs => exact ⟨front, behind, hxs.symm, .refl front, .refl behind⟩
  | @swap x y rest h =>
    obtain ⟨hx, hy⟩ := hstays x y h
    -- the barrier is neither the first nor the second, so both are before it
    rcases front with _ | ⟨u, _ | ⟨v, front⟩⟩
    · exact absurd (List.cons.inj hxs).1.symm hx
    · exact absurd (List.cons.inj (List.cons.inj hxs).2).1.symm hy
    · simp only [List.cons_append, List.cons.injEq] at hxs
      obtain ⟨rfl, rfl, rfl⟩ := hxs
      exact ⟨v :: u :: front, behind, rfl, .swap front h, .refl behind⟩
  | @cons x xs ys h ih =>
    rcases front with _ | ⟨u, front⟩
    · obtain ⟨rfl, rfl⟩ := List.cons.inj hxs
      exact ⟨[], ys, rfl, .refl [], h⟩
    · obtain ⟨rfl, htail⟩ := List.cons.inj hxs
      obtain ⟨front', behind', rfl, hfront, hbehind⟩ := ih htail
      exact ⟨u :: front', behind', rfl, .cons u hfront, hbehind⟩
  | trans _ _ ih ih' =>
    obtain ⟨front', behind', hys, hfront, hbehind⟩ := ih hxs
    obtain ⟨front'', behind'', hzs, hfront', hbehind'⟩ := ih' hys.symm
    exact ⟨front'', behind'', hzs, hfront.trans hfront', hbehind.trans hbehind'⟩

/-- So does a stretch that such a member ends, and one that is empty. -/
theorem divide_front {front behind : List α} (h : Exchanges may (front ++ behind) ys)
    (hends : ∀ barrier ∈ front.getLast?, ∀ x y, may x y → x ≠ barrier ∧ y ≠ barrier) :
    ∃ front' behind', ys = front' ++ behind' ∧ front'.Perm front ∧
      Exchanges may behind behind' := by
  rcases List.eq_nil_or_concat' front with rfl | ⟨front, barrier, rfl⟩
  · exact ⟨[], ys, rfl, .refl [], h⟩
  · rw [List.append_assoc, List.singleton_append] at h
    obtain ⟨front', behind', rfl, hfront, hbehind⟩ := h.divide (hends barrier List.getLast?_concat)
    exact ⟨front' ++ [barrier], behind', by simp, hfront.perm.append_right [barrier], hbehind⟩

/-- So it keeps its place, and what is before it was before it. -/
theorem stays {i : Nat} {barrier : α} (h : Exchanges may xs ys) (hget : xs[i]? = some barrier)
    (hstays : ∀ x y, may x y → x ≠ barrier ∧ y ≠ barrier) :
    ys[i]? = some barrier ∧ (ys.take i).Perm (xs.take i) := by
  obtain ⟨hi, hget⟩ := List.getElem?_eq_some_iff.mp hget
  have hdivided : xs.take i ++ barrier :: xs.drop (i + 1) = xs := by
    rw [← hget, ← List.drop_eq_getElem_cons hi, List.take_append_drop]
  rw [← hdivided] at h
  obtain ⟨front, behind, rfl, hfront, -⟩ := h.divide hstays
  have hlength : front.length = i := by
    rw [hfront.perm.length_eq, List.length_take_of_le hi.le]
  constructor
  · rw [← hlength, List.getElem?_append_right (Nat.le_refl _), Nat.sub_self]
    rfl
  · rw [← hlength, List.take_left', hlength]
    · exact hfront.perm
    · rfl

/-- Exchanges do not see what else the members carry. -/
theorem lift (f : β → α) (h : Exchanges may xs ys) {zs : List β} (hzs : zs.map f = xs) :
    ∃ ws, Exchanges (fun x y => may (f x) (f y)) zs ws ∧ ws.map f = ys := by
  induction h generalizing zs with
  | refl xs => exact ⟨zs, .refl zs, hzs⟩
  | @swap x y rest h =>
    obtain ⟨x', others, rfl, rfl, hothers⟩ := List.map_eq_cons_iff.mp hzs
    obtain ⟨y', zs, rfl, rfl, rfl⟩ := List.map_eq_cons_iff.mp hothers
    exact ⟨y' :: x' :: zs, .swap zs h, rfl⟩
  | cons x _ ih =>
    obtain ⟨x', others, rfl, rfl, hothers⟩ := List.map_eq_cons_iff.mp hzs
    obtain ⟨ws, hws, rfl⟩ := ih hothers
    exact ⟨x' :: ws, .cons x' hws, rfl⟩
  | trans _ _ ih ih' =>
    obtain ⟨vs, hvs, hread⟩ := ih hzs
    obtain ⟨ws, hws, hread'⟩ := ih' hread
    exact ⟨ws, .trans hvs hws, hread'⟩

/-- **Members come out the other way round only if they may.** -/
theorem reorderedBy (h : Exchanges may xs ys) : ReorderedBy may xs ys := by
  obtain ⟨placed, hplaced, hread⟩ := h.lift Prod.fst (List.zipIdx_map_fst 0 xs)
  refine ⟨placed, hplaced.perm, hread, hplaced.pairwise (fun x y hmay _ => hmay) ?_⟩
  -- at the start the places ascend
  have hascending : xs.zipIdx.Pairwise fun x y => x.2 < y.2 := by
    rw [← List.pairwise_map, List.zipIdx_map_snd]
    exact List.pairwise_lt_range'
  exact hascending.imp fun hlt hgt => absurd hgt (by omega)

end Exchanges

/-! ### Sweeps -/

section Sweeps

variable {α : Type} (swaps : α → α → Bool)

/-- A sweep is a series of exchanges. -/
theorem exchanges_sweepFrom (x : α) (ys : List α) :
    Exchanges (fun x y => swaps x y = true) (x :: ys) (sweepFrom swaps x ys).1 := by
  induction ys generalizing x with
  | nil => exact .refl [x]
  | cons y ys ih =>
    by_cases hxy : swaps x y = true
    · -- `x` is carried on behind `y`
      rw [sweepFrom_cons_of_swaps ys hxy]
      exact .trans (.swap ys hxy) (.cons y (ih x))
    · rw [sweepFrom_cons_of_not_swaps ys (by simpa using hxy)]
      exact .cons x (ih y)

theorem exchanges_sweep (xs : List α) :
    Exchanges (fun x y => swaps x y = true) xs (sweep swaps xs).1 := by
  cases xs with
  | nil => exact .refl []
  | cons x xs => exact exchanges_sweepFrom swaps x xs

/-- Sweeps are a series of exchanges. -/
theorem exchanges_sweepTimes (n : Nat) (xs : List α) :
    Exchanges (fun x y => swaps x y = true) xs (sweepTimes swaps n xs).1 := by
  induction n generalizing xs with
  | zero => exact .refl xs
  | succ n ih =>
    by_cases hswept : (sweep swaps xs).2 = true
    · rw [sweepTimes_succ_of_swept hswept]
      exact .trans (exchanges_sweep swaps xs) (ih _)
    · rw [sweepTimes_succ_of_still (by simpa using hswept)]
      exact .refl xs

/-- **Bubbling exchanges what the test asks for.** -/
theorem exchanges_bubble (xs : List α) :
    Exchanges (fun x y => swaps x y = true) xs (bubble swaps xs).1 :=
  exchanges_sweepTimes swaps xs.length xs

end Sweeps

/-! ### Arrangements -/

/-- **What steps back past what:** in front, in the order of calls, or in the order by size. -/
def Policy.Passes {α : Type} (policy : Policy) (op : BinaryOp) (x y : Operand α) : Prop :=
  policy.swapsFront op x.profile y.profile = true ∨ policy.sinksBack op x.profile y.profile = true ∨
    policy.outgrows op x.profile y.profile = true

@[simp] theorem Policy.passes_converse {α : Type} (policy : Policy) (op : BinaryOp) :
    policy.Passes (α := α) op.converse = policy.Passes op := by
  funext x y
  simp [Passes]

/-- **What is known of two operands of which the first steps back past the second.** It is a call or
the larger one, the second is no call, and neither is exempt. -/
theorem Policy.Passes.cause {α : Type} {policy : Policy} {op : BinaryOp} {x y : Operand α}
    (h : policy.Passes op x y) :
    (x.profile.form.isCall = true ∨ x.profile.isLarger y.profile = true) ∧
    y.profile.form.isCall = false ∧
      policy.exempts op x.profile.form = false ∧ policy.exempts op y.profile.form = false := by
  rcases h with hfront | hsinks | houtgrows
  · -- a call on the right exempts the pair
    simp only [swapsFront, exemptsPair, exemptsRight, Bool.and_eq_true, Bool.not_eq_true',
      Bool.or_eq_false_iff] at hfront
    obtain ⟨hlarger, ⟨⟨-, hx⟩, hy⟩, ⟨hycall, -⟩, -⟩ := hfront
    exact ⟨.inr hlarger, hycall, hx, hy⟩
  · simp only [sinksBack, Bool.and_eq_true, Bool.not_eq_true'] at hsinks
    obtain ⟨⟨⟨hxcall, hycall⟩, hx⟩, hy⟩ := hsinks
    exact ⟨.inl hxcall, hycall, hx, hy⟩
  · simp only [outgrows, movable, Bool.and_eq_true, Bool.not_eq_true'] at houtgrows
    obtain ⟨⟨⟨⟨-, hx⟩, -⟩, ⟨hycall, hy⟩, -⟩, hlarger⟩ := houtgrows
    exact ⟨.inr hlarger, hycall, hx, hy⟩

namespace Arrangement

variable {α : Type} (policy : Policy)

/-- The swap in front is an exchange, if it is made. -/
theorem exchanges_swapFront (a : Arrangement α) :
    Exchanges (policy.Passes a.op) a.operands (a.swapFront policy).operands := by
  rcases swapFront_cases policy a with hsame | ⟨x, y, rest, hops, hswaps, hswapped⟩
  · rw [hsame]
    exact .refl a.operands
  · rw [hswapped, hops]
    exact .swap rest (.inl hswaps)

/-- **Sorting a chain is a series of exchanges,** each of two neighbours that one of the steps may
exchange. -/
theorem exchanges_sortChain (a : Arrangement α) :
    Exchanges (policy.Passes a.op) a.operands (a.sortChain policy).operands := by
  have hcalls : Exchanges (policy.Passes a.op) a.operands
      (a.bubbleBy (policy.sinksBack a.op)).operands :=
    (exchanges_bubble _ a.operands).imp fun _ _ h => .inr (.inl h)
  have hsizes : Exchanges (policy.Passes a.op) (a.bubbleBy (policy.sinksBack a.op)).operands
      (a.sized policy).operands :=
    (exchanges_bubble _ _).imp fun _ _ h => .inr (.inr h)
  rw [sortChain_eq]
  exact (hcalls.trans hsizes).trans (exchanges_swapFront policy (a.sized policy))

end Arrangement

/-- **Arranging exchanges neighbours.** -/
theorem exchanges_arrange {α : Type} (policy : Policy) (op : BinaryOp) (xs : List (Operand α)) :
    Exchanges (policy.Passes op) xs (arrange policy op xs).operands := by
  by_cases hfixed : isFixed op xs = true
  · rw [arrange_of_isFixed policy op hfixed]
    exact .refl xs
  · rw [arrange_of_not_isFixed policy op (by simpa using hfixed)]
    set start : Arrangement α := ⟨op, xs, false⟩ with hstart
    have hfront := Arrangement.exchanges_swapFront policy start
    split
    · -- the operator may have been flipped by then, which changes no test
      have hchain := Arrangement.exchanges_sortChain policy (start.swapFront policy)
      rw [Arrangement.eq_of_op_swapFront policy policy.passes_converse start] at hchain
      exact hfront.trans hchain
    · exact hfront

end OperandOrder
