import OperandOrder.Proofs.Arena.Sorting
import OperandOrder.Proofs.Exchanges

/-!
# Bubbling counts its exchanges

What bubbling makes of a list is said in one structure, `Bubbled`, for every test that never asks
for a swap and for its reverse. Such a test need not be transitive: three elements may each have to
step back past the next one, round in a circle. Still the list settles within as many sweeps as it
has elements, and what is reported is exactly whether anything was exchanged.

That nothing is exchanged back is what the last point rests on. `passed` counts the pairs of a list,
next to each other or not, that stand as an exchange leaves them. Every exchange of neighbours adds
one to it (`passed_exchange`), since it changes the order of no other pair. So between two lists
there is only one number of exchanges (`ExchangedIn.passed_eq`), it is zero only if the lists are
the same, and bubbling reports whether it is.

In an arena the operands are exchanged by their places, and the tests look them up.
`bubbling_settles` says all of this of the sweeps by places, and that the two orders of an arena
never ask for a swap and for its reverse.
-/

namespace OperandOrder

/-! ### Counted exchanges -/

/-- **So many exchanges of neighbours,** one after the other, each of a pair `x`, `y` with
`swaps x y`. -/
inductive ExchangedIn {α : Type} (swaps : α → α → Bool) : Nat → List α → List α → Prop
  | none (xs : List α) : ExchangedIn swaps 0 xs xs
  | next {n : Nat} {xs front rest : List α} {x y : α}
    (h : ExchangedIn swaps n xs (front ++ x :: y :: rest)) (hxy : swaps x y = true) :
    ExchangedIn swaps (n + 1) xs (front ++ y :: x :: rest)

/-- The number of pairs that stand as an exchange leaves them: the second steps back past
the first. -/
def passed {α : Type} (swaps : α → α → Bool) : List α → Nat
  | [] => 0
  | y :: ys => ys.countP (fun x => swaps x y) + passed swaps ys

section Counting

variable {α : Type} {swaps : α → α → Bool} {n m : Nat} {xs ys zs : List α}

namespace ExchangedIn

theorem one {x y : α} (rest : List α) (hxy : swaps x y = true) :
    ExchangedIn swaps 1 (x :: y :: rest) (y :: x :: rest) :=
  @next _ _ _ _ [] rest x y (none _) hxy

theorem eq_of_zero (h : ExchangedIn swaps 0 xs ys) : ys = xs := by
  cases h with
  | none => rfl

theorem cons (z : α) (h : ExchangedIn swaps n xs ys) : ExchangedIn swaps n (z :: xs) (z :: ys) := by
  induction h with
  | none xs => exact none (z :: xs)
  | @next n xs front rest x y _ hxy ih => exact @next _ _ _ _ (z :: front) rest x y ih hxy

theorem trans (h : ExchangedIn swaps n xs ys) (h' : ExchangedIn swaps m ys zs) :
    ExchangedIn swaps (n + m) xs zs := by
  induction h' with
  | none ys => exact h
  | next _ hxy ih => exact next (ih h) hxy

end ExchangedIn

/-- **An exchange adds one pair,** since it changes the order of no other pair. -/
theorem passed_exchange (h : Asymmetric swaps) (front rest : List α) {x y : α}
    (hxy : swaps x y = true) :
    passed swaps (front ++ y :: x :: rest) = passed swaps (front ++ x :: y :: rest) + 1 := by
  induction front with
  | nil =>
    have hyx : swaps y x = false := h x y hxy
    simp only [List.nil_append, passed, List.countP_cons, hxy, hyx, if_true, Bool.false_eq_true,
      if_false]
    omega
  | cons z front ih =>
    -- `z` stands before both, whichever comes first
    have hperm : (front ++ y :: x :: rest).Perm (front ++ x :: y :: rest) :=
      (List.Perm.swap x y rest).append_left front
    rw [List.cons_append, List.cons_append, passed, passed, hperm.countP_eq, ih, Nat.add_assoc]

/-- **There is only one number of exchanges** between two lists. -/
theorem ExchangedIn.passed_eq (h : Asymmetric swaps) (hxs : ExchangedIn swaps n xs ys) :
    passed swaps ys = passed swaps xs + n := by
  induction hxs with
  | none xs => rfl
  | @next n xs front rest x y _ hxy ih => rw [passed_exchange h front rest hxy, ih, Nat.add_assoc]

/-! ### Sweeps that count -/

variable (swaps) in

/-- A sweep reports whether it exchanged anything. -/
theorem exists_exchangedIn_sweepFrom (x : α) (ys : List α) :
    ∃ n, ExchangedIn swaps n (x :: ys) (sweepFrom swaps x ys).1 ∧
      ((sweepFrom swaps x ys).2 = true ↔ 0 < n) := by
  induction ys generalizing x with
  | nil => exact ⟨0, .none [x], by simp [sweepFrom]⟩
  | cons y ys ih =>
    by_cases hxy : swaps x y = true
    · -- one exchange, and those behind it
      obtain ⟨n, hn, -⟩ := ih x
      rw [sweepFrom_cons_of_swaps ys hxy]
      exact ⟨1 + n, (ExchangedIn.one ys hxy).trans (hn.cons y), by simp only [true_iff]; omega⟩
    · obtain ⟨n, hn, hreport⟩ := ih y
      rw [sweepFrom_cons_of_not_swaps ys (by simpa using hxy)]
      exact ⟨n, hn.cons x, hreport⟩

variable (swaps) in
theorem exists_exchangedIn_sweep (xs : List α) :
    ∃ n, ExchangedIn swaps n xs (sweep swaps xs).1 ∧ ((sweep swaps xs).2 = true ↔ 0 < n) := by
  cases xs with
  | nil => exact ⟨0, .none [], by simp [sweep]⟩
  | cons x xs => exact exists_exchangedIn_sweepFrom swaps x xs

variable (swaps) in

/-- So do several sweeps. A later one cannot take back what an earlier one reports. -/
theorem exists_exchangedIn_sweepTimes (k : Nat) (xs : List α) :
    ∃ n, ExchangedIn swaps n xs (sweepTimes swaps k xs).1 ∧
      ((sweepTimes swaps k xs).2 = true ↔ 0 < n) := by
  induction k generalizing xs with
  | zero => exact ⟨0, .none xs, by simp [sweepTimes]⟩
  | succ k ih =>
    by_cases hswept : (sweep swaps xs).2 = true
    · obtain ⟨n, hn, hreport⟩ := exists_exchangedIn_sweep swaps xs
      obtain ⟨m, hm, -⟩ := ih (sweep swaps xs).1
      have hpos : 0 < n := hreport.mp hswept
      rw [sweepTimes_succ_of_swept hswept]
      exact ⟨n + m, hn.trans hm, by simp only [true_iff]; omega⟩
    · rw [sweepTimes_succ_of_still (by simpa using hswept)]
      exact ⟨0, .none xs, by simp⟩

end Counting

/-! ### What bubbling makes of a list -/

/-- **A list that was bubbled,** and what is reported of it. -/
structure Bubbled {α : Type} (swaps : α → α → Bool) (xs : List α) (result : List α × Bool) :
    Prop where
  perm : result.1.Perm xs
  /-- No two neighbours swap. -/
  settled : Settled swaps result.1
  /-- Two members come out the other way round only if the first of them steps back past
  the second. -/
  reversed : ReorderedBy (fun x y => swaps x y = true) xs result.1
  /-- It takes a certain number of exchanges, and it is reported whether there was any. -/
  exchanged : ∃ n, ExchangedIn swaps n xs result.1 ∧
    (∀ m, ExchangedIn swaps m xs result.1 → m = n) ∧ (result.2 = true ↔ 0 < n)
  reported : result.2 = true ↔ result.1 ≠ xs

/-- **Bubbling settles,** whatever the test is, as long as it never asks for a swap and for
its reverse. -/
theorem bubbled_bubble {α : Type} {swaps : α → α → Bool} (h : Asymmetric swaps) (xs : List α) :
    Bubbled swaps xs (bubble swaps xs) := by
  obtain ⟨n, hn, hreport⟩ := exists_exchangedIn_sweepTimes swaps xs.length xs
  have hpassed := hn.passed_eq h
  refine ⟨bubble_perm xs, settled_bubble h xs, (exchanges_bubble swaps xs).reorderedBy,
    ⟨n, hn, fun m hm => ?_, hreport⟩, hreport.trans ⟨fun hpos hsame => ?_, fun hne => ?_⟩⟩
  · have hpassed' := hm.passed_eq h
    rw [bubble] at hpassed'
    omega
  · -- as many pairs are passed as before, so nothing was exchanged
    rw [bubble] at hsame
    rw [hsame] at hpassed
    omega
  · refine Nat.pos_of_ne_zero fun hzero => hne ?_
    subst hzero
    exact hn.eq_of_zero

/-! ### In an arena -/

namespace Arena

/-- **Bubbling by places settles,** if the test has an answer for all that is in the list. -/
theorem exists_bubbled_bubble? {swaps? : Ref → Ref → Option Bool}
    (h : ∀ x y, swaps? x y = some true → swaps? y x = some false) {refs : List Ref}
    (hanswers : ∀ x ∈ refs, ∀ y ∈ refs, ∃ b, swaps? x y = some b) :
    ∃ result, bubble? swaps? refs = some result ∧
      Bubbled (fun x y => swaps? x y == some true) refs result := by
  have hasymm : Asymmetric fun x y => swaps? x y == some true := by
    intro x y hxy
    simp [h x y (eq_of_beq hxy)]
  have hsame : ∀ x ∈ refs, ∀ y ∈ refs, swaps? (id x) (id y) = some (swaps? x y == some true) := by
    intro x hx y hy
    obtain ⟨b, hb⟩ := hanswers x hx y hy
    cases b <;> simp [hb]
  have hbubble := bubble?_eq hsame
  rw [List.map_id, List.map_id] at hbubble
  exact ⟨_, hbubble, bubbled_bubble hasymm refs⟩

/-- A test that fails where another one holds. -/
theorem bind_unless_eq_some_true {o rest : Option Bool} :
    (o.bind fun b => if b = true then some false else rest) = some true ↔
    o = some false ∧ rest = some true := by
  rcases o with _ | _ | _ <;> simp

/-- A test that fails where another one does. -/
theorem bind_if_eq_some_true {o rest : Option Bool} :
    (o.bind fun b => if b = true then rest else some false) = some true ↔
    o = some true ∧ rest = some true := by
  rcases o with _ | _ | _ <;> simp

variable {a : Arena} {policy : Policy} {op : BinaryOp} {x y : Ref}

/-- An operand that is larger than another one was compared with it, and so can be compared the
other way round. -/
theorem isLarger?_asymm (h : a.isLarger? x y = some true) : a.isLarger? y x = some false := by
  simp only [isLarger?, Option.bind_eq_bind, bind_unless_eq_some_true] at h
  obtain ⟨hx, hy, h⟩ := h
  obtain ⟨m, hm, h⟩ := Option.bind_eq_some_iff.mp h
  obtain ⟨n, hn, h⟩ := Option.bind_eq_some_iff.mp h
  simp only [isLarger?, hx, hy, hm, hn, Option.bind_eq_bind, Option.bind_some, Bool.false_eq_true,
    if_false]
  by_cases habove : Profile.threshold + n < m
  · rw [if_neg (by omega), if_pos habove]
  by_cases hbelow : Profile.threshold + m < n
  · rw [if_neg habove, if_pos hbelow] at h
    exact absurd h (by simp)
  -- the weights do not decide: two calls are told apart by their arguments, all else by the text
  rw [if_neg habove, if_neg hbelow] at h
  rw [if_neg hbelow, if_neg habove]
  simp only [Option.bind_eq_some_iff] at h
  obtain ⟨f, hf, g, hg, h⟩ := h
  simp only [hf, hg, Option.bind_some]
  cases hk : f.args? <;> cases hl : g.args? <;> simp only [hk, hl, Option.bind_eq_some_iff] at h ⊢
  case some.some k l =>
    rw [Option.some.injEq, decide_eq_true_eq] at h
    simp [h.le]
  all_goals
    obtain ⟨c, hc, d, hd, h⟩ := h
    rw [Option.some.injEq, decide_eq_true_eq] at h
    simp [hc, hd, h.le]

/-- A call that has stepped back does not step forward, in an arena either. -/
theorem sinksBack?_asymm (h : a.sinksBack? policy op x y = some true) :
    a.sinksBack? policy op y x = some false := by
  simp only [sinksBack?, Option.bind_eq_bind, Option.bind_eq_some_iff] at h
  obtain ⟨f, hf, h⟩ := h
  split at h
  next hcall =>
    -- `y` is no call, so the form of `x` is not looked at
    obtain ⟨g, hg, h⟩ := Option.bind_eq_some_iff.mp h
    simp only [Option.some.injEq, Bool.and_eq_true, Bool.not_eq_true'] at h
    simp [sinksBack?, hg, h.1.1]
  next => exact absurd h (by simp)

theorem outgrows?_asymm (h : a.outgrows? policy op x y = some true) :
    a.outgrows? policy op y x = some false := by
  simp only [outgrows?, Option.bind_eq_bind, bind_if_eq_some_true] at h
  obtain ⟨hx, hy, hlarger⟩ := h
  simp [outgrows?, hx, hy, isLarger?_asymm hlarger]

end Arena

/-- **Bubbling settles without transitivity,** over any elements and by places in an arena, and the
two orders by which operands are bubbled are such tests. -/
theorem bubbling_settles :
    (∀ {α : Type} {swaps : α → α → Bool}, Asymmetric swaps →
      ∀ xs, Bubbled swaps xs (bubble swaps xs)) ∧
      (∀ {swaps? : Ref → Ref → Option Bool} {refs : List Ref},
        (∀ x y, swaps? x y = some true → swaps? y x = some false) →
        (∀ x ∈ refs, ∀ y ∈ refs, ∃ b, swaps? x y = some b) →
        ∃ result, Arena.bubble? swaps? refs = some result ∧
          Bubbled (fun x y => swaps? x y == some true) refs result) ∧
      ∀ (policy : Policy) (op : BinaryOp),
        Asymmetric (policy.sinksBack op) ∧ Asymmetric (policy.outgrows op) ∧
        ∀ (a : Arena) (x y : Ref),
          (a.sinksBack? policy op x y = some true → a.sinksBack? policy op y x = some false) ∧
            (a.outgrows? policy op x y = some true → a.outgrows? policy op y x = some false) :=
  ⟨fun h xs => bubbled_bubble h xs, fun h hanswers => Arena.exists_bubbled_bubble? h hanswers,
    fun policy op => ⟨policy.sinksBack_asymm op, policy.outgrows_asymm op,
      fun _ _ _ => ⟨Arena.sinksBack?_asymm, Arena.outgrows?_asymm⟩⟩⟩

/-- Each of three elements steps back past the next one, round in a circle. -/
def stepsRound (x y : Fin 3) : Bool := y == x + 1

/-- The operands of `f() * ab * c`, the call behind the others. -/
def trio : Arena :=
  ⟨#[⟨⟨6, 8⟩, .ident "ab"⟩, ⟨⟨11, 12⟩, .ident "c"⟩, ⟨⟨0, 3⟩, .call none "f" ⟨0, 0⟩⟩], #[]⟩

/-- A test that is not transitive, and the two orders on operands in an arena. -/
theorem bubbling_settles_round :
    Asymmetric stepsRound ∧ Bubbled stepsRound [0, 1, 2, 0, 1] (bubble stepsRound [0, 1, 2, 0, 1]) ∧
      bubble stepsRound [0, 1, 2, 0, 1] = ([1, 0, 0, 2, 1], true) ∧
      (trio.sinksBack? .standard .mul (some 2) (some 0) = some true ∧
        trio.sinksBack? .standard .mul (some 0) (some 2) = some false) ∧
      (trio.outgrows? .standard .mul (some 0) (some 1) = some true ∧
        trio.outgrows? .standard .mul (some 1) (some 0) = some false) ∧
      ∃ result, Arena.bubble? (trio.sinksBack? .standard .mul) [some 2, some 0, some 1] =
        some result ∧
        Bubbled (fun x y => trio.sinksBack? .standard .mul x y == some true)
          [some 2, some 0, some 1] result := by
  obtain ⟨hlists, hplaces, horders⟩ := bubbling_settles
  obtain ⟨-, -, harena⟩ := horders .standard .mul
  -- the test goes round in a circle, so no order is behind it
  have hround : Asymmetric stepsRound := by unfold Asymmetric; decide
  have hsinks : trio.sinksBack? .standard .mul (some 2) (some 0) = some true := by decide
  have houtgrows : trio.outgrows? .standard .mul (some 0) (some 1) = some true := by decide
  exact ⟨hround, hlists hround _, by decide, ⟨hsinks, (harena trio _ _).1 hsinks⟩,
    ⟨houtgrows, (harena trio _ _).2 houtgrows⟩,
      hplaces (fun x y => (harena trio x y).1) (by decide)⟩

end OperandOrder
