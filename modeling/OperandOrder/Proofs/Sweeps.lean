import Mathlib.Data.List.Chain
import OperandOrder.Arrange

/-!
# Sweeps settle

`bubble` runs as many sweeps as there are elements. That this is enough is usually argued from the
largest element reaching the end, which needs a transitive order. The tests used here are only
**asymmetric**, and the argument is another one: a sweep that arrives at a stretch in which no two
neighbours swap *inserts* the element it carries into that stretch, and the longer stretch has no
two neighbours that swap either. So every sweep lengthens the settled end of the list by one
element.

* `settled_bubble`: no two neighbours of the result swap;
* `bubble_of_settled`: a settled list is left alone;
* `bubble_perm`: nothing is lost or made up;
* `bubble_map`: bubbling looks at nothing but the answers of the test;
* `map_bubble_eq`: what a swap cannot tell apart stays where it is.
-/

namespace OperandOrder

variable {α β : Type} {swaps : α → α → Bool}

/-- No two neighbours of the list swap. -/
def Settled (swaps : α → α → Bool) (xs : List α) : Prop :=
  xs.IsChain fun x y => swaps x y = false

/-- A test that never asks for a swap and for its reverse. -/
def Asymmetric (swaps : α → α → Bool) : Prop :=
  ∀ x y, swaps x y = true → swaps y x = false

/-! ### One sweep -/

theorem sweepFrom_cons_of_swaps {x y : α} (ys : List α) (h : swaps x y = true) :
    sweepFrom swaps x (y :: ys) = (y :: (sweepFrom swaps x ys).1, true) := by
  rw [sweepFrom, if_pos h]

theorem sweepFrom_cons_of_not_swaps {x y : α} (ys : List α) (h : swaps x y = false) :
    sweepFrom swaps x (y :: ys) =
      (x :: (sweepFrom swaps y ys).1, (sweepFrom swaps y ys).2) := by
  rw [sweepFrom, if_neg (by rw [h]; exact Bool.false_ne_true)]

/-- A sweep begins with the element it carries or with that element's first neighbour. -/
theorem head?_sweepFrom (x : α) (ys : List α) (z : α) (hz : z ∈ (sweepFrom swaps x ys).1.head?) :
    z = x ∨ z ∈ ys.head? := by
  cases ys with
  | nil =>
    left
    simpa [sweepFrom, eq_comm] using hz
  | cons y ys =>
    by_cases hxy : swaps x y = true
    · rw [sweepFrom_cons_of_swaps ys hxy] at hz
      exact .inr hz
    · rw [sweepFrom_cons_of_not_swaps ys (by simpa using hxy)] at hz
      left
      simpa [eq_comm] using hz

/-- Where no two neighbours swap, a sweep swaps nothing. -/
theorem sweepFrom_of_settled (x : α) (ys : List α) (h : Settled swaps (x :: ys)) :
    sweepFrom swaps x ys = (x :: ys, false) := by
  induction ys generalizing x with
  | nil => rfl
  | cons y ys ih =>
    -- `x` stays in front of `y`, and `y` is carried on
    obtain ⟨hxy, hrest⟩ := List.isChain_cons_cons.mp h
    rw [sweepFrom_cons_of_not_swaps ys hxy, ih y hrest]

/-- A sweep that swaps nothing has met no two neighbours that swap. -/
theorem settled_of_sweepFrom (x : α) (ys : List α) (h : (sweepFrom swaps x ys).2 = false) :
    Settled swaps (x :: ys) := by
  induction ys generalizing x with
  | nil => exact List.IsChain.singleton x
  | cons y ys ih =>
    by_cases hxy : swaps x y = true
    · -- a swap is reported, whatever comes after it
      rw [sweepFrom_cons_of_swaps ys hxy] at h
      exact absurd h (by simp)
    · have hxy : swaps x y = false := by simpa using hxy
      rw [sweepFrom_cons_of_not_swaps ys hxy] at h
      exact List.IsChain.cons_cons hxy (ih y h)

/-- **A sweep inserts.** Where no two neighbours of `ys` swap, the element carried into `ys` comes
to rest in front of the first one it does not swap with, and still no two neighbours swap. -/
theorem settled_sweepFrom (h : Asymmetric swaps) (x : α) (ys : List α) (hys : Settled swaps ys) :
    Settled swaps (sweepFrom swaps x ys).1 := by
  induction ys with
  | nil => exact List.IsChain.singleton x
  | cons y ys ih =>
    obtain ⟨hy, hrest⟩ := List.isChain_cons.mp hys
    by_cases hxy : swaps x y = true
    · rw [sweepFrom_cons_of_swaps ys hxy]
      refine List.IsChain.cons (ih hrest) fun z hz => ?_
      -- behind `y` comes `x`, which has just passed it, or what came behind `y` before
      rcases head?_sweepFrom x ys z hz with rfl | hz
      · exact h _ y hxy
      · exact hy z hz
    · have hxy : swaps x y = false := by simpa using hxy
      -- `x` rests here, and from `y` on the sweep swaps nothing
      rw [sweepFrom_cons_of_not_swaps ys hxy, sweepFrom_of_settled y ys hys]
      exact List.IsChain.cons_cons hxy hys

/-- **One more element settles.** If everything from place `n` of `ys` on is settled, then so is
everything from place `n` of the swept `x :: ys` on. -/
theorem settled_drop_sweepFrom (h : Asymmetric swaps) (n : Nat) (x : α) (ys : List α)
    (hys : Settled swaps (ys.drop n)) : Settled swaps ((sweepFrom swaps x ys).1.drop n) := by
  -- `n` counts the places before the settled end; once the sweep arrives there it inserts
  induction n generalizing x ys with
  | zero => exact settled_sweepFrom h x ys hys
  | succ n ih =>
    cases ys with
    | nil =>
      change Settled swaps (([] : List α).drop n)
      rw [List.drop_nil]
      exact List.IsChain.nil
    | cons y ys =>
      by_cases hxy : swaps x y = true
      · rw [sweepFrom_cons_of_swaps ys hxy]
        exact ih x ys hys
      · rw [sweepFrom_cons_of_not_swaps ys (by simpa using hxy)]
        exact ih y ys hys

/-- A sweep keeps the members. -/
theorem sweepFrom_perm (x : α) (ys : List α) : ((sweepFrom swaps x ys).1).Perm (x :: ys) := by
  induction ys generalizing x with
  | nil => exact List.Perm.refl _
  | cons y ys ih =>
    by_cases hxy : swaps x y = true
    · rw [sweepFrom_cons_of_swaps ys hxy]
      exact ((ih x).cons y).trans (List.Perm.swap x y ys)
    · rw [sweepFrom_cons_of_not_swaps ys (by simpa using hxy)]
      exact (ih y).cons x

/-- A sweep over images is the image of a sweep, if the two tests give the same answers on
the list. -/
theorem sweepFrom_map (f : α → β) (swaps' : β → β → Bool) (x : α) (ys : List α)
    (h : ∀ a ∈ x :: ys, ∀ b ∈ x :: ys, swaps' (f a) (f b) = swaps a b) :
    sweepFrom swaps' (f x) (ys.map f) =
      ((sweepFrom swaps x ys).1.map f, (sweepFrom swaps x ys).2) := by
  -- the element that is carried changes, and it is always one of those the test is known for
  induction ys generalizing x with
  | nil => rfl
  | cons y ys ih =>
    have hfirst : swaps' (f x) (f y) = swaps x y := h x (by simp) y (by simp)
    by_cases hxy : swaps x y = true
    · have hcarried : ∀ a ∈ x :: ys, ∀ b ∈ x :: ys, swaps' (f a) (f b) = swaps a b :=
        fun a ha b hb => h a (by grind) b (by grind)
      rw [List.map_cons, sweepFrom_cons_of_swaps ys hxy,
        sweepFrom_cons_of_swaps _ (hfirst.trans hxy), ih x hcarried]
      rfl
    · have hxy : swaps x y = false := by simpa using hxy
      have hcarried : ∀ a ∈ y :: ys, ∀ b ∈ y :: ys, swaps' (f a) (f b) = swaps a b :=
        fun a ha b hb => h a (List.mem_cons_of_mem x ha) b (List.mem_cons_of_mem x hb)
      rw [List.map_cons, sweepFrom_cons_of_not_swaps ys hxy,
        sweepFrom_cons_of_not_swaps _ (hfirst.trans hxy), ih y hcarried]
      rfl

/-- If only elements of one class swap, the classes stay where they are. -/
theorem map_sweepFrom_eq (f : α → β) (h : ∀ x y, swaps x y = true → f x = f y) (x : α)
    (ys : List α) : (sweepFrom swaps x ys).1.map f = (x :: ys).map f := by
  induction ys generalizing x with
  | nil => rfl
  | cons y ys ih =>
    by_cases hxy : swaps x y = true
    · -- `x` and `y` change places, and are of one class
      rw [sweepFrom_cons_of_swaps ys hxy, List.map_cons, ih x]
      simp [h x y hxy]
    · rw [sweepFrom_cons_of_not_swaps ys (by simpa using hxy), List.map_cons, ih y]
      rfl

/-! ### Sweeps until nothing swaps -/

theorem sweep_of_settled (xs : List α) (h : Settled swaps xs) : sweep swaps xs = (xs, false) := by
  cases xs with
  | nil => rfl
  | cons x xs => exact sweepFrom_of_settled x xs h

theorem settled_of_sweep (xs : List α) (h : (sweep swaps xs).2 = false) : Settled swaps xs := by
  cases xs with
  | nil => exact List.IsChain.nil
  | cons x xs => exact settled_of_sweepFrom x xs h

theorem settled_drop_sweep (h : Asymmetric swaps) (n : Nat) (xs : List α)
    (hxs : Settled swaps (xs.drop (n + 1))) : Settled swaps ((sweep swaps xs).1.drop n) := by
  cases xs with
  | nil => simpa [sweep] using hxs
  | cons x xs => exact settled_drop_sweepFrom h n x xs hxs

theorem sweep_perm (xs : List α) : ((sweep swaps xs).1).Perm xs := by
  cases xs with
  | nil => exact List.Perm.refl _
  | cons x xs => exact sweepFrom_perm x xs

/-- A sweep does the same to what looks the same. -/
theorem sweep_map (f : α → β) (swaps' : β → β → Bool) (xs : List α)
    (h : ∀ a ∈ xs, ∀ b ∈ xs, swaps' (f a) (f b) = swaps a b) :
    sweep swaps' (xs.map f) = ((sweep swaps xs).1.map f, (sweep swaps xs).2) := by
  cases xs with
  | nil => rfl
  | cons x xs => exact sweepFrom_map f swaps' x xs h

theorem map_sweep_eq (f : α → β) (h : ∀ x y, swaps x y = true → f x = f y) (xs : List α) :
    (sweep swaps xs).1.map f = xs.map f := by
  cases xs with
  | nil => rfl
  | cons x xs => exact map_sweepFrom_eq f h x xs

theorem sweepTimes_succ_of_swept {n : Nat} {xs : List α} (h : (sweep swaps xs).2 = true) :
    sweepTimes swaps (n + 1) xs = ((sweepTimes swaps n (sweep swaps xs).1).1, true) := by
  rw [sweepTimes, if_pos h]

theorem sweepTimes_succ_of_still {n : Nat} {xs : List α} (h : (sweep swaps xs).2 = false) :
    sweepTimes swaps (n + 1) xs = (xs, false) := by
  rw [sweepTimes, if_neg (by rw [h]; exact Bool.false_ne_true)]

/-- **The settled end grows.** `n` sweeps settle a list of which only the first `n` elements are not
settled yet. -/
theorem settled_sweepTimes (h : Asymmetric swaps) (n : Nat) (xs : List α)
    (hxs : Settled swaps (xs.drop n)) : Settled swaps (sweepTimes swaps n xs).1 := by
  induction n generalizing xs with
  | zero => exact hxs
  | succ n ih =>
    by_cases hswept : (sweep swaps xs).2 = true
    · rw [sweepTimes_succ_of_swept hswept]
      exact ih _ (settled_drop_sweep h n xs hxs)
    · have hstill : (sweep swaps xs).2 = false := by simpa using hswept
      -- a sweep without a swap ends the run, and shows that all of the list is settled
      rw [sweepTimes_succ_of_still hstill]
      exact settled_of_sweep xs hstill

/-- Sweeps keep the members. -/
theorem sweepTimes_perm (n : Nat) (xs : List α) : ((sweepTimes swaps n xs).1).Perm xs := by
  induction n generalizing xs with
  | zero => exact List.Perm.refl _
  | succ n ih =>
    by_cases hswept : (sweep swaps xs).2 = true
    · rw [sweepTimes_succ_of_swept hswept]
      exact (ih _).trans (sweep_perm xs)
    · rw [sweepTimes_succ_of_still (by simpa using hswept)]

/-- **Sweeps do the same to what looks the same.** -/
theorem sweepTimes_map (f : α → β) (swaps' : β → β → Bool) (n : Nat) (xs : List α)
    (h : ∀ a ∈ xs, ∀ b ∈ xs, swaps' (f a) (f b) = swaps a b) :
    sweepTimes swaps' n (xs.map f) =
      ((sweepTimes swaps n xs).1.map f, (sweepTimes swaps n xs).2) := by
  induction n generalizing xs with
  | zero => rfl
  | succ n ih =>
    have hsweep := sweep_map f swaps' xs h
    by_cases hswept : (sweep swaps xs).2 = true
    · -- the swept list has the same elements, so the tests still agree on it
      have hmem : ∀ a ∈ (sweep swaps xs).1, ∀ b ∈ (sweep swaps xs).1,
          swaps' (f a) (f b) = swaps a b :=
        fun a ha b hb => h a ((sweep_perm xs).mem_iff.mp ha) b ((sweep_perm xs).mem_iff.mp hb)
      rw [sweepTimes_succ_of_swept hswept, sweepTimes_succ_of_swept (by rw [hsweep]; exact hswept),
        hsweep, ih _ hmem]
    · have hstill : (sweep swaps xs).2 = false := by simpa using hswept
      rw [sweepTimes_succ_of_still hstill, sweepTimes_succ_of_still (by rw [hsweep]; exact hstill)]

/-- What looks the same where exchanges are made is in the same order as before. -/
theorem map_sweepTimes_eq (f : α → β) (h : ∀ x y, swaps x y = true → f x = f y) (n : Nat)
    (xs : List α) : (sweepTimes swaps n xs).1.map f = xs.map f := by
  induction n generalizing xs with
  | zero => rfl
  | succ n ih =>
    by_cases hswept : (sweep swaps xs).2 = true
    · rw [sweepTimes_succ_of_swept hswept, ih, map_sweep_eq f h]
    · rw [sweepTimes_succ_of_still (by simpa using hswept)]

/-! ### Bubbling -/

/-- **Bubbling settles,** for any test that is asymmetric. At the start the settled end is empty. -/
theorem settled_bubble (h : Asymmetric swaps) (xs : List α) :
    Settled swaps (bubble swaps xs).1 := by
  refine settled_sweepTimes h xs.length xs ?_
  rw [List.drop_length]
  exact List.IsChain.nil

/-- **A settled list is left alone.** -/
theorem bubble_of_settled (xs : List α) (h : Settled swaps xs) : bubble swaps xs = (xs, false) := by
  unfold bubble
  cases xs with
  | nil => rfl
  | cons x xs => exact sweepTimes_succ_of_still (by rw [sweep_of_settled _ h])

/-- Sweeps that swap nothing leave the list as it is. -/
theorem sweepTimes_of_still {n : Nat} {xs : List α} (h : (sweepTimes swaps n xs).2 = false) :
    sweepTimes swaps n xs = (xs, false) := by
  cases n with
  | zero => rfl
  | succ n =>
    by_cases hswept : (sweep swaps xs).2 = true
    · rw [sweepTimes_succ_of_swept hswept] at h
      exact absurd h (by simp)
    · exact sweepTimes_succ_of_still (by simpa using hswept)

/-- Bubbling only changes the order. -/
theorem bubble_perm (xs : List α) : ((bubble swaps xs).1).Perm xs :=
  sweepTimes_perm xs.length xs

/-- Bubbling looks at nothing but the answers of the test. -/
theorem bubble_map (f : α → β) (swaps' : β → β → Bool) (xs : List α)
    (h : ∀ a ∈ xs, ∀ b ∈ xs, swaps' (f a) (f b) = swaps a b) :
    bubble swaps' (xs.map f) = ((bubble swaps xs).1.map f, (bubble swaps xs).2) := by
  unfold bubble
  rw [List.length_map]
  exact sweepTimes_map f swaps' xs.length xs h

/-- If only elements of one class swap, the classes stay where they are. -/
theorem map_bubble_eq (f : α → β) (h : ∀ x y, swaps x y = true → f x = f y) (xs : List α) :
    (bubble swaps xs).1.map f = xs.map f :=
  map_sweepTimes_eq f h xs.length xs

end OperandOrder
