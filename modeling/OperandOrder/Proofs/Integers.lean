import Mathlib.Algebra.Order.Ring.Int
import Mathlib.Data.List.Induction
import Mathlib.Data.List.Nodup
import Mathlib.Tactic.Ring
import OperandOrder.Proofs.Meaning

/-!
# Integers as values

An interpretation over the integers is an `Interpretation.Arithmetic` if its comparisons are one or
zero and the operators that permute their operands are commutative and associative. Then it is
lawful.

A comparison of three operands or more compares a truth value with its last operand. How much its
value says of the order of its operands is the subject here: if two orders of different names have
the same value whatever the names stand for, they are the same order but for the first two names of
an equality (`Interpretation.Arithmetic.eq_or_front_of_fold_eq`), and the operator is not the
converse (`Interpretation.Arithmetic.op_eq_of_fold_eq`). The induction is on the length of the
chain, from its end. If the last names differ, a value for the one decides the first chain, and the
second one can still be given the other answer; if they are the same, its value can show which truth
value stands in front of it.
-/

namespace OperandOrder

/-- **The comparisons:** flippable operators under which not every order will do. -/
def BinaryOp.compares (op : BinaryOp) : Bool := op.isFlippable && !op.permutes

@[simp] theorem BinaryOp.compares_converse (op : BinaryOp) :
    op.converse.compares = op.compares := by
  cases op <;> rfl

theorem BinaryOp.eq_or_ne_of_converse {op : BinaryOp} (hop : op.compares = true)
    (h : op.converse = op) : op = .eq ∨ op = .ne := by
  revert hop h
  cases op <;> decide

namespace Interpretation

/-- **Values are integers,** and a comparison is one or zero. Of the other operators it is known
only which of them are commutative and associative. -/
structure Arithmetic (I : Interpretation ℤ) : Prop where
  comm : ∀ op : BinaryOp, op.permutes = true → ∀ x y, I.infixed op x y = I.infixed op y x
  assoc : ∀ op : BinaryOp, op.permutes = true →
    ∀ x y z, I.infixed op (I.infixed op x y) z = I.infixed op x (I.infixed op y z)
  lt : ∀ x y, I.infixed .lt x y = if x < y then 1 else 0
  gt : ∀ x y, I.infixed .gt x y = if x > y then 1 else 0
  le : ∀ x y, I.infixed .le x y = if x ≤ y then 1 else 0
  ge : ∀ x y, I.infixed .ge x y = if x ≥ y then 1 else 0
  eq : ∀ x y, I.infixed .eq x y = if x = y then 1 else 0
  ne : ∀ x y, I.infixed .ne x y = if x ≠ y then 1 else 0

/-- **Integers obey the laws,** comparisons apart. -/
theorem Arithmetic.lawful {I : Interpretation ℤ} (h : I.Arithmetic) : I.Lawful where
  comm := h.comm
  assoc := h.assoc
  eq_comm x y := by rw [h.eq, h.eq]; exact if_congr eq_comm rfl rfl
  ne_comm x y := by rw [h.ne, h.ne]; exact if_congr ne_comm rfl rfl
  lt_gt x y := by rw [h.lt, h.gt]
  le_ge x y := by rw [h.le, h.ge]

/-- Integers as values, for any values of the names. On zero and one the operators of bits are what
they are on bits. -/
def integers (assign : String → ℤ) : Interpretation ℤ where
  absent := 0
  error _ := 0
  literal _ _ text := (text.toNat?.getD 0 : Nat)
  ident _ name := assign name
  call receiver name args := receiver + name.length + args.foldr (· + ·) 0
  field receiver name := receiver + name.length
  unary
    | .neg, x => -x
    | .plus, x => x
    | .not, x => if x = 0 then 1 else 0
    | .bitNot, x => -x - 1
  infixed
    | .mul, x, y => x * y
    | .div, x, y => x / y
    | .rem, x, y => x % y
    | .add, x, y => x + y
    | .sub, x, y => x - y
    | .shl, x, y => x * 2 ^ y.toNat
    | .shr, x, y | .ushr, x, y => x / 2 ^ y.toNat
    | .lt, x, y => if x < y then 1 else 0
    | .gt, x, y => if x > y then 1 else 0
    | .le, x, y => if x ≤ y then 1 else 0
    | .ge, x, y => if x ≥ y then 1 else 0
    | .eq, x, y => if x = y then 1 else 0
    | .ne, x, y => if x ≠ y then 1 else 0
    | .bitAnd, x, y => min x y
    | .bitXor, x, y => x + y - 2 * x * y
    | .bitOr, x, y => max x y
    | .and, x, y => if x = 0 then x else y
    | .or, x, y => if x = 0 then y else x
  conditional x y z := if x = 0 then z else y
  nothing _ := 0

/-- The integers calculate: each law that is asked for holds of them. -/
theorem arithmetic_integers (assign : String → ℤ) : (integers assign).Arithmetic where
  comm op h x y := by
    -- `min`, `max` and `x + y - 2xy` are as commutative as the operators they stand for
    cases op with
    | add => exact add_comm x y
    | mul => exact mul_comm x y
    | bitAnd => exact min_comm x y
    | bitXor => change x + y - 2 * x * y = y + x - 2 * y * x; ring
    | bitOr => exact max_comm x y
    | _ => exact absurd h (by decide)
  assoc op h x y z := by
    cases op with
    | add => exact add_assoc x y z
    | mul => exact mul_assoc x y z
    | bitAnd => exact min_assoc x y z
    | bitXor =>
      change x + y - 2 * x * y + z - 2 * (x + y - 2 * x * y) * z =
        x + (y + z - 2 * y * z) - 2 * x * (y + z - 2 * y * z)
      ring
    | bitOr => exact max_assoc x y z
    | _ => exact absurd h (by decide)
  lt _ _ := rfl
  gt _ _ := rfl
  le _ _ := rfl
  ge _ _ := rfl
  eq _ _ := rfl
  ne _ _ := rfl

/-! ### Truth values -/

/-- One more operand is taken into account last. -/
theorem fold_concat {α V : Type} (I : Interpretation V) (op : BinaryOp) (assign : α → V)
    {xs : List α} (hxs : 0 < xs.length) (a : α) :
    I.fold op ((xs ++ [a]).map assign) = I.infixed op (I.fold op (xs.map assign)) (assign a) := by
  cases xs with
  | nil => exact absurd hxs (Nat.lt_irrefl 0)
  | cons x xs => simp [fold]

/-- The other order of a list of different members has a last one, too. -/
theorem exists_last_of_perm {α : Type} {xs ys : List α} {a : α} (hnodup : (xs ++ [a]).Nodup)
    (hperm : ys.Perm (xs ++ [a])) : ∃ zs b, ys = zs ++ [b] ∧ zs.length = xs.length ∧ b ∉ zs := by
  obtain rfl | ⟨zs, b, rfl⟩ := List.eq_nil_or_concat' ys
  · exact absurd hperm.length_eq (by simp)
  · have hlast := List.nodup_append_comm.mp (hperm.nodup_iff.mpr hnodup)
    exact ⟨zs, b, rfl, by simpa using hperm.length_eq, (List.nodup_cons.mp hlast).1⟩

namespace Arithmetic

variable {I : Interpretation ℤ} (hI : I.Arithmetic) {op op' : BinaryOp}

include hI

/-- A comparison has one of two values. -/
theorem zero_or_one (hop : op.compares = true) (x y : ℤ) :
    I.infixed op x y = 0 ∨ I.infixed op x y = 1 := by
  cases op with
  | lt => rw [hI.lt]; split <;> simp
  | gt => rw [hI.gt]; split <;> simp
  | le => rw [hI.le]; split <;> simp
  | ge => rw [hI.ge]; split <;> simp
  | eq => rw [hI.eq]; split <;> simp
  | ne => rw [hI.ne]; split <;> simp
  | _ => exact absurd hop (by decide)

/-- A chain of comparisons has one of two values. -/
theorem fold_zero_or_one (hop : op.compares = true) {α : Type} (assign : α → ℤ) {xs : List α}
    (hlength : 2 ≤ xs.length) : I.fold op (xs.map assign) = 0 ∨ I.fold op (xs.map assign) = 1 := by
  obtain rfl | ⟨ys, a, rfl⟩ := List.eq_nil_or_concat' xs
  · exact absurd hlength (by simp)
  · rw [List.length_append, List.length_singleton] at hlength
    rw [fold_concat I op assign (by omega)]
    exact hI.zero_or_one hop _ _

/-- Some value on the right decides a comparison with a truth value. -/
theorem exists_decisive (hop : op.compares = true) :
    ∃ c w, (w = 0 ∨ w = 1) ∧ ∀ v, v = 0 ∨ v = 1 → I.infixed op v c = w := by
  cases op with
  | lt => exact ⟨2, 1, .inr rfl, by rintro v (rfl | rfl) <;> simp [hI.lt]⟩
  | gt => exact ⟨-1, 1, .inr rfl, by rintro v (rfl | rfl) <;> simp [hI.gt]⟩
  | le => exact ⟨2, 1, .inr rfl, by rintro v (rfl | rfl) <;> simp [hI.le]⟩
  | ge => exact ⟨-1, 1, .inr rfl, by rintro v (rfl | rfl) <;> simp [hI.ge]⟩
  | eq => exact ⟨2, 0, .inl rfl, by rintro v (rfl | rfl) <;> simp [hI.eq]⟩
  | ne => exact ⟨2, 1, .inr rfl, by rintro v (rfl | rfl) <;> simp [hI.ne]⟩
  | _ => exact absurd hop (by decide)

/-- Whatever truth value stands on the left, either answer can be had. -/
theorem exists_answers (hop : op.compares = true) {v : ℤ} (hv : v = 0 ∨ v = 1) :
    ∃ d d', I.infixed op v d = 0 ∧ I.infixed op v d' = 1 := by
  have hlow : -1 < v := by omega
  have hhigh : v < 2 := by omega
  cases op with
  | lt => exact ⟨-1, 2, by simp [hI.lt, hlow.le], by simp [hI.lt, hhigh]⟩
  | gt => exact ⟨2, -1, by simp [hI.gt, hhigh.le], by simp [hI.gt, hlow]⟩
  | le => exact ⟨-1, 2, by simp [hI.le, hlow], by simp [hI.le, hhigh.le]⟩
  | ge => exact ⟨2, -1, by simp [hI.ge, hhigh], by simp [hI.ge, hlow.le]⟩
  | eq => exact ⟨2, v, by simp [hI.eq, hhigh.ne], by simp [hI.eq]⟩
  | ne => exact ⟨v, 2, by simp [hI.ne], by simp [hI.ne, hhigh.ne]⟩
  | _ => exact absurd hop (by decide)

/-- Some value on the right tells the truth values apart. -/
theorem exists_telling (hop : op.compares = true) : ∃ c, I.infixed op 0 c ≠ I.infixed op 1 c := by
  cases op with
  | lt => exact ⟨1, by simp [hI.lt]⟩
  | gt => exact ⟨0, by simp [hI.gt]⟩
  | le => exact ⟨0, by simp [hI.le]⟩
  | ge => exact ⟨1, by simp [hI.ge]⟩
  | eq => exact ⟨1, by simp [hI.eq]⟩
  | ne => exact ⟨0, by simp [hI.ne]⟩
  | _ => exact absurd hop (by decide)

/-- Some value on the right tells a comparison from its converse, if there is a difference. -/
theorem exists_telling_converse (hop : op.compares = true) (hne : op.converse ≠ op) :
    ∃ c, ∀ v w, (v = 0 ∨ v = 1) → (w = 0 ∨ w = 1) →
      I.infixed op v c ≠ I.infixed op.converse w c := by
  refine ⟨2, fun v w hv hw => ?_⟩
  have hv : v < 2 := by omega
  have hw : w < 2 := by omega
  cases op with
  | lt => simp [BinaryOp.converse, hI.lt, hI.gt, hv, hw.le]
  | gt => simp [BinaryOp.converse, hI.lt, hI.gt, hv.le, hw]
  | le => simp [BinaryOp.converse, hI.le, hI.ge, hv.le, hw]
  | ge => simp [BinaryOp.converse, hI.le, hI.ge, hv, hw.le]
  | eq => exact absurd rfl hne
  | ne => exact absurd rfl hne
  | _ => exact absurd hop (by decide)

/-! ### Chains of names -/

variable {xs ys : List String} {a b : String}

/-- With different names at the end, a value for the one decides the first chain, and then a value
for the other can be found that gives the second chain the other answer. -/
theorem differ_of_last_ne (hop : op.compares = true) (hop' : op'.compares = true)
    (hxs : 2 ≤ xs.length) (hys : 2 ≤ ys.length) (hab : a ≠ b) (hb : b ∉ ys) :
    ∃ assign : String → ℤ,
      I.fold op ((xs ++ [a]).map assign) ≠ I.fold op' ((ys ++ [b]).map assign) := by
  obtain ⟨c, w, hw, hdecides⟩ := hI.exists_decisive hop
  set start : String → ℤ := fun _ => c with hstart
  obtain ⟨d, hd⟩ : ∃ d, I.infixed op' (I.fold op' (ys.map start)) d ≠ w := by
    obtain ⟨d, d', hzero, hone⟩ := hI.exists_answers hop' (hI.fold_zero_or_one hop' start hys)
    rcases hw with rfl | rfl
    · exact ⟨d', by rw [hone]; exact one_ne_zero⟩
    · exact ⟨d, by rw [hzero]; exact zero_ne_one⟩
  set assign := Function.update start b d with hassign
  -- the value of `b` is seen at the end of the second chain only
  have hread : ys.map assign = ys.map start :=
    List.map_congr_left fun x hx => Function.update_of_ne (ne_of_mem_of_not_mem hx hb) d start
  have hfirst : I.fold op ((xs ++ [a]).map assign) = w := by
    rw [fold_concat I op assign (by omega), hassign, Function.update_of_ne hab]
    exact hdecides _ (hI.fold_zero_or_one hop assign hxs)
  have hsecond : I.fold op' ((ys ++ [b]).map assign) ≠ w := by
    rw [fold_concat I op' assign (by omega), hread, hassign, Function.update_self]
    exact hd
  exact ⟨assign, fun h => hsecond (h.symm.trans hfirst)⟩

/-- With the same name at the end, its value can show which truth value is on its left. -/
theorem differ_of_front (hop : op.compares = true) (hxs : 2 ≤ xs.length) (hys : 2 ≤ ys.length)
    (ha : a ∉ xs) (ha' : a ∉ ys) {assign : String → ℤ}
    (h : I.fold op (xs.map assign) ≠ I.fold op (ys.map assign)) :
    ∃ assign : String → ℤ,
      I.fold op ((xs ++ [a]).map assign) ≠ I.fold op ((ys ++ [a]).map assign) := by
  obtain ⟨c, hc⟩ := hI.exists_telling hop
  set assign' := Function.update assign a c with hassign
  have hread : ∀ zs : List String, a ∉ zs → zs.map assign' = zs.map assign := fun zs ha =>
    List.map_congr_left fun x hx => Function.update_of_ne (ne_of_mem_of_not_mem hx ha) c assign
  have hvalue := hI.fold_zero_or_one hop assign hxs
  have hvalue' := hI.fold_zero_or_one hop assign hys
  refine ⟨assign', ?_⟩
  rw [fold_concat I op assign' (by omega), fold_concat I op assign' (by omega), hread xs ha,
    hread ys ha', hassign, Function.update_self]
  -- the values on the left are zero and one, in one order or the other
  rcases hvalue with hx | hx <;> rcases hvalue' with hy | hy <;> rw [hx, hy] at h ⊢
  · exact absurd rfl h
  · exact hc
  · exact hc.symm
  · exact absurd rfl h

/-- With the same name at the end, its value can show whether the operator was flipped. -/
theorem differ_of_converse (hop : op.compares = true) (hne : op.converse ≠ op) (hxs : 2 ≤ xs.length)
    (hys : 2 ≤ ys.length) (a : String) : ∃ assign : String → ℤ,
      I.fold op ((xs ++ [a]).map assign) ≠ I.fold op.converse ((ys ++ [a]).map assign) := by
  obtain ⟨c, hc⟩ := hI.exists_telling_converse hop hne
  have hop' : op.converse.compares = true := by rwa [BinaryOp.compares_converse]
  refine ⟨fun _ => c, ?_⟩
  rw [fold_concat I op _ (by omega), fold_concat I op.converse _ (by omega)]
  exact hc _ _ (hI.fold_zero_or_one hop _ hxs) (hI.fold_zero_or_one hop' _ hys)

/-- Two operands of an order comparison cannot trade places without a flip. -/
theorem differ_of_pair (hop : op.compares = true) (hne : op.converse ≠ op) (hab : a ≠ b) :
    ∃ assign : String → ℤ, I.fold op ([a, b].map assign) ≠ I.fold op ([b, a].map assign) := by
  refine ⟨Function.update (fun _ => 0) b 1, ?_⟩
  simp only [List.map_cons, List.map_nil, Function.update_self, Function.update_of_ne hab, fold,
    List.foldl_cons, List.foldl_nil]
  cases op with
  | lt => simp [hI.lt]
  | gt => simp [hI.gt]
  | le => simp [hI.le]
  | ge => simp [hI.ge]
  | eq => exact absurd rfl hne
  | ne => exact absurd rfl hne
  | _ => exact absurd hop (by decide)

/-- Two names in two orders: one and the same, or that of an equality the other way round. -/
theorem eq_or_front_of_pair (hop : op.compares = true) {x y : String} (hxa : x ≠ a)
    (hperm : [y, b].Perm [x, a])
    (h : ∀ assign : String → ℤ, I.fold op ([x, a].map assign) = I.fold op ([y, b].map assign)) :
    [y, b] = [x, a] ∨ op.converse = op ∧ [y, b] = [a, x] := by
  rcases List.mem_pair.mp (hperm.mem_iff.mp List.mem_cons_self) with rfl | rfl
  · obtain rfl : b = a := List.singleton_perm_singleton.mp ((List.perm_cons y).mp hperm)
    exact .inl rfl
  · obtain rfl : b = x :=
      List.singleton_perm_singleton.mp ((List.perm_cons y).mp (hperm.trans (.swap y x [])))
    by_cases hconverse : op.converse = op
    · exact .inr ⟨hconverse, rfl⟩
    · obtain ⟨assign, hassign⟩ := hI.differ_of_pair hop hconverse hxa
      exact absurd (h assign) hassign

/-- **Which orders of a chain of names mean the same.** If two orders of different names have the
same value whatever the names stand for, they are the same, or they differ in the first two operands
of an equality. -/
theorem eq_or_front_of_fold_eq (hop : op.compares = true) (hnodup : xs.Nodup) (hperm : ys.Perm xs)
    (hlength : 2 ≤ xs.length)
    (h : ∀ assign : String → ℤ, I.fold op (xs.map assign) = I.fold op (ys.map assign)) :
    ys = xs ∨ op.converse = op ∧ ∃ x y rest, xs = x :: y :: rest ∧ ys = y :: x :: rest := by
  -- the fold is from the left, so names are compared from the last one on
  induction xs using List.reverseRecOn generalizing ys with
  | nil => exact absurd hlength (by simp)
  | append_singleton xs a ih =>
    obtain ⟨ys, b, rfl, hlengths, hb⟩ := exists_last_of_perm hnodup hperm
    by_cases hlong : 2 ≤ xs.length
    · by_cases hab : a = b
      · -- the same name at the end: what is in front of it has to agree
        subst hab
        have hfront : ys.Perm xs := (List.perm_append_right_iff [a]).mp hperm
        have ha : a ∉ xs := mt hfront.mem_iff.mpr hb
        have hagree : ∀ assign : String → ℤ,
            I.fold op (xs.map assign) = I.fold op (ys.map assign) := by
          by_contra hdiffer
          obtain ⟨assign, hassign⟩ := not_forall.mp hdiffer
          obtain ⟨assign', hassign'⟩ :=
            hI.differ_of_front hop hlong (hlengths ▸ hlong) ha hb hassign
          exact hassign' (h assign')
        rcases ih (List.nodup_append.mp hnodup).1 hfront hlong hagree with rfl
          | ⟨hconverse, x, y, rest, rfl, rfl⟩
        · exact .inl rfl
        · exact .inr ⟨hconverse, x, y, rest ++ [a], rfl, rfl⟩
      · obtain ⟨assign, hassign⟩ := hI.differ_of_last_ne hop hop hlong (hlengths ▸ hlong) hab hb
        exact absurd (h assign) hassign
    · -- two names are left
      obtain ⟨x, rfl⟩ := List.length_eq_one_iff.mp (show xs.length = 1 by simp at hlength; omega)
      obtain ⟨y, rfl⟩ := List.length_eq_one_iff.mp hlengths
      rcases hI.eq_or_front_of_pair hop (by simpa using hnodup) hperm h with hsame
        | ⟨hconverse, hfront⟩
      · exact .inl hsame
      · exact .inr ⟨hconverse, x, a, [], rfl, hfront⟩

/-- If two orders have the same value whatever the names stand for, the operator has not
been flipped. -/
theorem op_eq_of_fold_eq (hop : op.compares = true) (hop' : op' = op ∨ op' = op.converse)
    (hnodup : xs.Nodup) (hperm : ys.Perm xs) (hlength : 3 ≤ xs.length)
    (h : ∀ assign : String → ℤ, I.fold op (xs.map assign) = I.fold op' (ys.map assign)) :
    op' = op := by
  by_contra hne
  obtain rfl : op' = op.converse := hop'.resolve_left hne
  obtain rfl | ⟨xs, a, rfl⟩ := List.eq_nil_or_concat' xs
  · exact absurd hlength (by simp)
  obtain ⟨ys, b, rfl, hlengths, hb⟩ := exists_last_of_perm hnodup hperm
  have hxs : 2 ≤ xs.length := by simpa using hlength
  have hys : 2 ≤ ys.length := hlengths ▸ hxs
  by_cases hab : a = b
  · subst hab
    obtain ⟨assign, hassign⟩ := hI.differ_of_converse hop hne hxs hys a
    exact hassign (h assign)
  · have hop' : op.converse.compares = true := by rwa [BinaryOp.compares_converse]
    obtain ⟨assign, hassign⟩ := hI.differ_of_last_ne hop hop' hxs hys hab hb
    exact hassign (h assign)

end Arithmetic

end Interpretation

end OperandOrder
