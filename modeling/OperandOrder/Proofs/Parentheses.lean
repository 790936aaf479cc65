import OperandOrder.Proofs.Breadth

/-!
# What printing adds to a tree

A tree that has been reordered may need parentheses that were not there, and they are put in on
printing. Each makes the output two bytes wider than the tree is broad, and takes one node from
those that are loose. So

* the output is as wide as the tree is broad if and only if no parenthesis is put in
  (`Expr.width_fragments_eq_iff`);
* what a tree gains in width, it loses in loose nodes (`Expr.width_add_loose`), so that printing and
  reading it again does not change how wide it could get (`Expr.reach_of_bare`).
-/

namespace OperandOrder

namespace Expr

open Fragment

/-- **What printing adds to a part of a tree** that is `b` broad and has `l` loose nodes, if the
output is `w` wide and `k` nodes are loose when all parentheses are there. -/
structure Added (w b k l : Nat) (nothing : Prop) : Prop where
  le : b ≤ w
  law : w + 2 * k = b + 2 * l
  eq_iff : w = b ↔ nothing

namespace Added

variable {w b k l w' b' k' l' : Nat} {p q : Prop}

/-- Two parts side by side. -/
theorem add (h : Added w b k l p) (h' : Added w' b' k' l' q) :
    Added (w + w') (b + b') (k + k') (l + l') (p ∧ q) := by
  have hle := h.le
  have hle' := h'.le
  have hlaw := h.law
  have hlaw' := h'.law
  refine ⟨by omega, by omega, ?_⟩
  rw [← h.eq_iff, ← h'.eq_iff]
  omega

/-- What is printed in any case. -/
theorem add_const (h : Added w b k l p) (n : Nat) : Added (w + n) (b + n) k l p := by
  have hlaw := h.law
  refine ⟨Nat.add_le_add_right h.le n, by omega, ?_⟩
  rw [← h.eq_iff]
  omega

theorem congr (h : Added w b k l p) (hw : w = w') (hb : b = b') (hk : k = k') (hl : l = l')
    (hpq : p ↔ q) : Added w' b' k' l' q := by
  subst hw hb hk hl
  exact ⟨h.le, h.law, h.eq_iff.trans hpq⟩

theorem refl (hp : p) : Added w w k k p := ⟨Nat.le_refl w, rfl, iff_of_true rfl hp⟩

end Added

/-- What is added to a whole tree. -/
def Gains (e : Expr) : Prop :=
  Added (width e.fragments) e.breadth e.explicit.loose e.loose (e.explicit = e)

/-- A child that is not put in parentheses, wherever it stands. -/
theorem Gains.exposed {e : Expr} (h : e.Gains) :
    Added (width e.fragments) e.breadth e.explicit.exposed e.exposed (e.explicit = e) := by
  have hlaw := h.law
  refine ⟨h.le, ?_, h.eq_iff⟩
  rw [Expr.exposed, Expr.exposed, form_explicit]
  omega

/-- **A child in its position.** A parenthesis makes it two bytes wider, and then it is no
longer loose. -/
theorem Gains.child {e : Expr} (h : e.Gains) (position : Position) :
    Added (width (wrap position e.form e.fragments)) e.breadth
      (position.mark e.form e.explicit).exposed e.exposed
        (position.mark e.form e.explicit = e) := by
  rw [width_wrap]
  unfold Position.mark
  by_cases hwraps : position.wraps e.form = true
  · have hle := h.le
    have hlaw := h.law
    have hloose : e.exposed = e.loose + 1 := by
      rw [Expr.exposed, Form.isLoose_of_wraps hwraps]
      rfl
    have hinside : (paren .nowhere e.explicit).exposed = e.explicit.loose := rfl
    rw [if_pos hwraps, if_pos hwraps, hloose, hinside]
    refine ⟨by omega, by omega, iff_of_false (by omega) fun hparen => ?_⟩
    -- it was no parenthesis, since it is wrapped
    rw [← hparen] at hwraps
    exact Bool.false_ne_true (position.wraps_plain.symm.trans hwraps)
  · rw [if_neg hwraps, if_neg hwraps]
    exact h.exposed

/-- The operands of a node but for the leftmost. -/
theorem added_others (op : BinaryOp) {es : List Expr} (h : ∀ e ∈ es, e.Gains) :
    Added (width (operandFragments op false es)) (breadths es + es.length * op.gap)
      (looseAll (explicitOperands op false es)) (looseAll es)
        (explicitOperands op false es = es) := by
  induction es with
  | nil =>
    rw [List.length_nil, Nat.zero_mul]
    exact .refl rfl
  | cons e es ih =>
    have hfirst := (h e (by simp)).child (.operand op false)
    have hothers := ih fun x hx => h x (List.mem_cons_of_mem e hx)
    refine ((hfirst.add hothers).add_const op.gap).congr ?_ ?_ rfl rfl ?_
    · rw [operandFragments, if_neg Bool.false_ne_true, width_append, width_append, BinaryOp.gap]
      omega
    · rw [breadths, List.length_cons, Nat.succ_mul]
      omega
    · rw [explicitOperands, List.cons.injEq]

/-- What printing adds to operands is added to each of them. -/
theorem added_operands (op : BinaryOp) {es : List Expr} (h : ∀ e ∈ es, e.Gains) :
    Added (width (operandFragments op true es)) (breadths es + (es.length - 1) * op.gap)
      (looseAll (explicitOperands op true es)) (looseAll es)
        (explicitOperands op true es = es) := by
  cases es with
  | nil =>
    rw [List.length_nil, Nat.zero_sub, Nat.zero_mul]
    exact .refl rfl
  | cons e es =>
    have hfirst := (h e (by simp)).child (.operand op true)
    have hothers := added_others op fun x hx => h x (List.mem_cons_of_mem e hx)
    refine (hfirst.add hothers).congr ?_ ?_ rfl rfl ?_
    · rw [operandFragments, if_pos rfl, List.nil_append, width_append]
    · rw [breadths, List.length_cons, Nat.add_sub_cancel, Nat.add_assoc]
    · rw [explicitOperands, List.cons.injEq]

/-- The arguments of a call but for the first. -/
theorem added_laterArguments {es : List Expr} (h : ∀ e ∈ es, e.Gains) :
    Added (width (argumentFragments false es)) (breadths es + es.length * 2)
      (looseAll (explicitAll es)) (looseAll es) (explicitAll es = es) := by
  induction es with
  | nil => exact .refl rfl
  | cons e es ih =>
    have hlater := ih fun x hx => h x (List.mem_cons_of_mem e hx)
    have hcomma : width [.text ",", .space] = 2 := rfl
    refine (((h e (by simp)).exposed.add hlater).add_const 2).congr ?_ ?_ rfl rfl ?_
    · rw [argumentFragments, if_neg Bool.false_ne_true, width_append, width_append, hcomma]
      omega
    · rw [breadths, List.length_cons, Nat.succ_mul]
      omega
    · rw [explicitAll, List.cons.injEq]

/-- What printing adds to arguments is added to each of them. -/
theorem added_arguments {es : List Expr} (h : ∀ e ∈ es, e.Gains) :
    Added (width (argumentFragments true es)) (breadths es + (es.length - 1) * 2)
      (looseAll (explicitAll es)) (looseAll es) (explicitAll es = es) := by
  cases es with
  | nil => exact .refl rfl
  | cons e es =>
    have hlater := added_laterArguments fun x hx => h x (List.mem_cons_of_mem e hx)
    refine ((h e (by simp)).exposed.add hlater).congr ?_ ?_ rfl rfl ?_
    · rw [argumentFragments, if_pos rfl, List.nil_append, width_append]
    · rw [breadths, List.length_cons, Nat.add_sub_cancel, Nat.add_assoc]
    · rw [explicitAll, List.cons.injEq]

/-- **What printing adds to a tree.** -/
theorem gains (e : Expr) : e.Gains := by
  induction e using induct with
  | absent => exact .refl rfl
  | error s => exact .refl rfl
  | literal s kind text => exact .refl rfl
  | ident s name => exact .refl rfl
  | call s receiver name args hreceiver hargs =>
    have hmarked := hreceiver.child .receiver
    have hothers := added_arguments hargs
    have hparens : width [.text "("] + width [.text ")"] = 2 := rfl
    rw [Gains, fragments_call, breadth, explicit]
    by_cases hplain : receiver = .absent
    · -- a plain call, of which only the arguments can get parentheses
      rw [if_pos hplain, if_pos (form_eq_absent_iff.mpr hplain), List.nil_append]
      subst hplain
      refine (hothers.add_const (width [.text name] + 2)).congr ?_ (by omega) ?_ ?_ ?_
      · simp only [width_append]
        omega
      · exact (Nat.zero_add _).symm
      · exact (Nat.zero_add _).symm
      · simp [Position.mark, explicit, Position.wraps, form]
    · rw [if_neg hplain, if_neg (mt form_eq_absent_iff.mp hplain)]
      refine ((hmarked.add hothers).add_const (1 + (width [.text name] + 2))).congr ?_ (by omega)
        rfl rfl ?_
      · have hpoint : width [.text "."] = 1 := rfl
        simp only [width_append, hpoint]
        omega
      · simp
  -- what a node adds to its children is the same with the marks and without
  | field s receiver name hreceiver =>
    refine ((hreceiver.child .receiver).add_const (1 + width [.text name])).congr ?_ rfl rfl rfl ?_
    · rw [fragments, width_append, width_cons]
      rfl
    · simp [explicit]
  | unary s op operand hoperand =>
    refine ((hoperand.child .unaryOperand).add_const
      (width [.text op.symbol] + width (signGap op operand.form))).congr ?_ ?_ rfl rfl ?_
    · rw [fragments, width_append, width_cons _ (signGap op operand.form)]
      omega
    · rw [breadth]
      omega
    · simp [explicit]
  | paren s inner hinner =>
    have hparens : width [.text "("] + width [.text ")"] = 2 := rfl
    refine (hinner.add_const 2).congr ?_ rfl rfl rfl ?_
    · rw [fragments, width_append, width_cons]
      omega
    · simp [explicit]
  | binary s op left right hleft hright =>
    refine (((hleft.child (.operand op true)).add
      (hright.child (.operand op false))).add_const op.gap).congr ?_ rfl rfl rfl ?_
    · rw [fragments, width_append, width_append, BinaryOp.gap]
      omega
    · simp [explicit]
  | chain s op operands hoperands =>
    refine (added_operands op hoperands).congr ?_ rfl rfl rfl ?_
    · rw [fragments]
    · simp [explicit]
  | conditional s cond yes no hcond hyes hno =>
    have hmarks : width [.space, .text "?", .space] + width [.space, .text ":", .space] = 6 := rfl
    refine ((((hcond.child .condition).add hyes.exposed).add hno.exposed).add_const 6).congr ?_ rfl
      rfl rfl ?_
    · simp only [fragments, width_append]
      omega
    · simp [explicit, and_assoc]

/-- **A tree is printed as broad as it is if and only if no parenthesis is put in.** -/
theorem width_fragments_eq_iff (e : Expr) : width e.fragments = e.breadth ↔ e.explicit = e :=
  (gains e).eq_iff

/-- **What a tree gains in width on printing, it loses in loose nodes.** -/
theorem width_add_loose (e : Expr) : width e.fragments + 2 * e.explicit.loose = e.reach :=
  (gains e).law

/-- Output is no wider than the tree could get. -/
theorem width_fragments_le_reach (e : Expr) : width e.fragments ≤ e.reach := by
  rw [← width_add_loose]
  exact Nat.le_add_right _ _

theorem loose_explicit_le (e : Expr) : e.explicit.loose ≤ e.loose := by
  have hle := (gains e).le
  have hlaw := (gains e).law
  omega

/-- **Where a parenthesis is put in, fewer nodes are loose.** -/
theorem loose_explicit_lt {e : Expr} (h : e.explicit ≠ e) : e.explicit.loose < e.loose := by
  have hle := (gains e).le
  have hlaw := (gains e).law
  have hne := mt (width_fragments_eq_iff e).mp h
  omega

/-- **What is read again can get no wider,** if it is the tree with its parentheses put in. -/
theorem reach_of_bare {e e' : Expr} (hbare : e'.bare = e.explicit.bare)
    (hexplicit : e'.explicit = e') : e'.reach = e.reach := by
  have hloose : e'.loose = e.explicit.loose := by rw [← loose_bare, hbare, loose_bare]
  have hbreadth : e'.breadth = width e.fragments := by
    rw [← (width_fragments_eq_iff e').mpr hexplicit, ← fragments_bare e', hbare, fragments_bare,
      fragments_explicit]
  rw [← width_add_loose e, reach, hloose, hbreadth]

end Expr

end OperandOrder
