import OperandOrder.Proofs.Parser.Grouping

/-!
# Operands, level by level

Operands that are read all at once and grouped afterwards can be read level by level as well.
`Parser.levelTo k` reads the operands that are joined by operators up to level `k` and groups them.
The next level begins with such an operand, and each operator of its own level is followed by
another one (`Parser.levelTo_succ`). Below the tightest level stands a unary expression, and at the
loosest one stands what is read all at once (`Parser.levelTo_tight`, `Parser.map_group_operands`).

Both ways of reading go through pairs of an operator and an operand (`Parser.pairs`). They differ in
which operators they take, and in how they read an operand. If fewer operators are taken, reading
stops earlier, and goes on from there as it would have (`Parser.pairs_split`). So what is read up to
a level is cut where the operators of that level stand; what is between them collapses to one
operand each (`Parser.collapseTo_pairs`).
-/

namespace OperandOrder

namespace BinaryOp

/-- The tightest operators are those of level 3. -/
theorem three_le_level (op : BinaryOp) : 3 ≤ op.level := by
  cases op <;> decide

/-- The loosest operators are those of level 12. -/
theorem level_le_twelve (op : BinaryOp) : op.level ≤ 12 := by
  cases op <;> decide

end BinaryOp

namespace Reply

variable {α β γ : Type} {r : Reply α}

/-- A reply with another value made of its value. -/
def map (f : α → β) (r : Reply α) : Reply β := ⟨f r.value, r.used, r.errors⟩

theorem map_map (f : α → β) (g : β → γ) : (r.map f).map g = r.map fun x => g (f x) := rfl

theorem map_after (f : α → β) (n : Nat) (earlier : List ParseError) :
    (r.after n earlier).map f = (r.map f).after n earlier := rfl

/-- What has been read before what has been read before. -/
theorem after_after (m n : Nat) (early later : List ParseError) :
    (r.after n later).after m early = r.after (m + n) (early ++ later) := by
  simp [after, Nat.add_assoc]

/-- Only the value matters to what is made of it. -/
theorem map_congr {f g : α → β} (h : f r.value = g r.value) : r.map f = r.map g := by
  unfold map
  rw [h]

end Reply

/-! ### Collapsing what a level leaves over -/

namespace Flat

variable {k : Nat}

/-- A single operand is not grouped. -/
theorem collapseTo_single (k : Nat) (e : Expr) : (⟨e, []⟩ : Flat).collapseTo k = ⟨e, []⟩ := by
  unfold collapseTo
  induction levelsTo k with
  | nil => rfl
  | cons level levels ih => exact ih

/-- Operators up to a level leave one operand. -/
theorem collapseTo_of_level_le {f : Flat} (h : ∀ p ∈ f.tail, p.1.level ≤ k) :
    f.collapseTo k = ⟨(f.collapseTo k).head, []⟩ := by
  have hops : (f.collapseTo k).ops = [] := by
    refine List.eq_nil_iff_forall_not_mem.mpr fun op hop => ?_
    obtain ⟨hmem, hlevel⟩ := ops_collapseTo hop
    obtain ⟨p, hp, rfl⟩ := List.mem_map.mp hmem
    have hlow := p.1.three_le_level
    have hhigh := h p hp
    exact hlevel (List.mem_range'_1.mpr (by omega))
  generalize f.collapseTo k = g at hops
  obtain ⟨e, rest⟩ := g
  obtain rfl : rest = [] := List.map_eq_nil_iff.mp hops
  rfl

/-- What is joined by operators up to a level may be collapsed before the rest. -/
theorem collapseTo_append_of_level_le {e : Expr} {near far : List (BinaryOp × Expr)}
    (hnear : ∀ p ∈ near, p.1.level ≤ k) (hfar : ∀ p ∈ far.head?, k < p.1.level) :
    (⟨e, near ++ far⟩ : Flat).collapseTo k =
      (⟨((⟨e, near⟩ : Flat).collapseTo k).head, far⟩ : Flat).collapseTo k := by
  obtain ⟨x, hx⟩ : ∃ x, (⟨e, near⟩ : Flat).collapseTo k = ⟨x, []⟩ :=
    ⟨_, collapseTo_of_level_le hnear⟩
  rw [hx]
  cases far with
  | nil => rw [List.append_nil, hx, collapseTo_single]
  | cons p far =>
    have hp : k < p.1.level := hfar p rfl
    have hleft := collapseTo_append (⟨e, near⟩ : Flat) ⟨p.2, far⟩ hp
    have hright := collapseTo_append (⟨x, []⟩ : Flat) ⟨p.2, far⟩ hp
    rw [hx] at hleft
    rw [collapseTo_single] at hright
    exact hleft.trans hright.symm

end Flat

namespace Parser

/-! ### Pairs of an operator and an operand -/

/-- The binary operator in front, if it is one that `p` takes. -/
def operator? (p : BinaryOp → Bool) (ts : List Token) : Option BinaryOp :=
  (ts.head?.bind (·.kind.binary?)).filter p

/-- **Operators that `p` takes,** each with the operand behind it. -/
def pairs (p : BinaryOp → Bool) (operand : List Token → Reply Expr) (ts : List Token) :
    Reply (List (BinaryOp × Expr)) :=
  match ts with
  | [] => ⟨[], 0, []⟩
  | t :: rest =>
    match t.kind.binary?.filter p with
    | none => ⟨[], 0, []⟩
    | some op =>
      let first := operand rest
      let more := pairs p operand (rest.drop first.used)
      ⟨(op, first.value) :: more.value, 1 + first.used + more.used, first.errors ++ more.errors⟩
termination_by ts.length
decreasing_by
  rw [List.length_drop, List.length_cons]
  omega

section Pairs

variable {p q : BinaryOp → Bool} {operand : List Token → Reply Expr} {ts : List Token}

/-- An operator is a token. -/
theorem exists_cons_of_operator? {op : BinaryOp} (h : operator? p ts = some op) :
    ∃ t rest, ts = t :: rest := by
  cases ts with
  | nil => exact absurd h (by simp [operator?])
  | cons t rest => exact ⟨t, rest, rfl⟩

/-- An operator that is found is one that was looked for. -/
theorem of_operator? {op : BinaryOp} (h : operator? p ts = some op) : p op = true :=
  (Option.filter_eq_some_iff.mp h).2

/-- An operator is found as well if more are looked for. -/
theorem operator?_mono (hpq : ∀ op, p op = true → q op = true) {op : BinaryOp}
    (h : operator? p ts = some op) : operator? q ts = some op := by
  obtain ⟨hfront, hp⟩ := Option.filter_eq_some_iff.mp h
  exact Option.filter_eq_some_iff.mpr ⟨hfront, hpq op hp⟩

/-- Without an operator there are no pairs. -/
theorem pairs_of_none (h : operator? p ts = none) : pairs p operand ts = ⟨[], 0, []⟩ := by
  cases ts with
  | nil => rw [pairs]
  | cons t rest =>
    have ht : t.kind.binary?.filter p = none := h
    rw [pairs, ht]

/-- An operator begins a pair, with the operand behind it. -/
theorem pairs_cons {t : Token} {rest : List Token} {op : BinaryOp}
    (h : operator? p (t :: rest) = some op) : pairs p operand (t :: rest) =
      ((pairs p operand (rest.drop (operand rest).used)).map
        ((op, (operand rest).value) :: ·)).after
        (1 + (operand rest).used) (operand rest).errors := by
  have ht : t.kind.binary?.filter p = some op := h
  rw [pairs, ht]
  rfl

/-- **Induction along the pairs:** nothing is taken, or one operator with its operand is taken and
reading goes on behind them. -/
theorem pairs_induct (p : BinaryOp → Bool) (operand : List Token → Reply Expr)
    {motive : List Token → Prop} (stop : ∀ ts, operator? p ts = none → motive ts)
    (step : ∀ t rest op, operator? p (t :: rest) = some op →
      motive (rest.drop (operand rest).used) → motive (t :: rest))
    (ts : List Token) : motive ts := by
  induction hlength : ts.length using Nat.strong_induction_on generalizing ts with
  | _ n ih =>
    cases hop : operator? p ts with
    | none => exact stop ts hop
    | some op =>
      obtain ⟨t, rest, rfl⟩ := exists_cons_of_operator? hop
      refine step t rest op hop (ih _ ?_ _ rfl)
      rw [← hlength, List.length_drop, List.length_cons]
      omega

/-- Every operator that was taken is one that `p` takes. -/
theorem forall_mem_pairs (p : BinaryOp → Bool) (operand : List Token → Reply Expr)
    (ts : List Token) : ∀ x ∈ (pairs p operand ts).value, p x.1 = true := by
  induction ts using pairs_induct p operand with
  | stop ts hop =>
    rw [pairs_of_none hop]
    exact fun x hx => absurd hx List.not_mem_nil
  | step t rest op hop ih =>
    rw [pairs_cons hop]
    exact List.forall_mem_cons.mpr ⟨of_operator? hop, ih⟩

/-- The first operator that was taken stands in front. -/
theorem head?_pairs {x : BinaryOp × Expr} (hx : x ∈ (pairs p operand ts).value.head?) :
    operator? p ts = some x.1 := by
  cases hop : operator? p ts with
  | none =>
    rw [pairs_of_none hop] at hx
    exact absurd hx (by simp)
  | some op =>
    obtain ⟨t, rest, rfl⟩ := exists_cons_of_operator? hop
    rw [pairs_cons hop] at hx
    obtain rfl : (op, (operand rest).value) = x := Option.some.inj hx
    rfl

/-- What is left behind the pairs, the first of them apart. -/
theorem drop_pairs_cons {t : Token} {rest : List Token} {op : BinaryOp}
    (h : operator? p (t :: rest) = some op) : (t :: rest).drop (pairs p operand (t :: rest)).used =
      (rest.drop (operand rest).used).drop
        (pairs p operand (rest.drop (operand rest).used)).used := by
  rw [pairs_cons h, Reply.after, Reply.map, Nat.add_assoc, Nat.add_comm 1, List.drop_succ_cons,
    List.drop_drop]

/-- No operator that `p` takes stands behind the pairs. -/
theorem operator?_drop_pairs (p : BinaryOp → Bool) (operand : List Token → Reply Expr)
    (ts : List Token) : operator? p (ts.drop (pairs p operand ts).used) = none := by
  induction ts using pairs_induct p operand with
  | stop ts hop =>
    rw [pairs_of_none hop]
    exact hop
  | step t rest op hop ih =>
    rw [drop_pairs_cons hop]
    exact ih

/-- **Where fewer operators are taken,** reading stops earlier and can go on from there. -/
theorem pairs_split (hpq : ∀ op, p op = true → q op = true) (operand : List Token → Reply Expr)
    (ts : List Token) : pairs q operand ts =
      ((pairs q operand (ts.drop (pairs p operand ts).used)).map
        ((pairs p operand ts).value ++ ·)).after
        (pairs p operand ts).used (pairs p operand ts).errors := by
  induction ts using pairs_induct p operand with
  | stop ts hop =>
    rw [pairs_of_none hop]
    simp [Reply.after, Reply.map]
  | step t rest op hop ih =>
    rw [drop_pairs_cons hop, pairs_cons (operator?_mono hpq hop), ih, pairs_cons hop]
    simp [Reply.after, Reply.map, Nat.add_assoc]

end Pairs

/-! ### Reading by level -/

/-- Operands with operators up to a level between them, not yet grouped. -/
def operandsTo (total level : Nat) (ts : List Token) : Reply Flat :=
  let first := unary total ts
  ((pairs (·.level ≤ level) (unary total) (ts.drop first.used)).map (⟨first.value, ·⟩)).after
    first.used first.errors

/-- **What stands at a level:** operands with operators up to this level between them, grouped. -/
def levelTo (total level : Nat) (ts : List Token) : Reply Expr :=
  (operandsTo total level ts).map fun f => (f.collapseTo level).head

/-- The operators of a level, each with what stands at the level below behind it. -/
def levelPairs (total level : Nat) (ts : List Token) : Reply (List (BinaryOp × Expr)) :=
  pairs (·.level == level) (levelTo total (level - 1)) ts

section Levels

variable (total : Nat) {k : Nat} (ts : List Token)

/-- Without an operator of the level there are no pairs of the level. -/
theorem levelPairs_of_none {ts : List Token} (h : operator? (·.level == k) ts = none) :
    levelPairs total k ts = ⟨[], 0, []⟩ :=
  pairs_of_none h

/-- An operator of the level begins a pair, with what stands at the level below behind it. -/
theorem levelPairs_cons {t : Token} {us : List Token} {op : BinaryOp}
    (h : operator? (·.level == k) (t :: us) = some op) : levelPairs total k (t :: us) =
      ((levelPairs total k (us.drop (levelTo total (k - 1) us).used)).map
        ((op, (levelTo total (k - 1) us).value) :: ·)).after
          (1 + (levelTo total (k - 1) us).used) (levelTo total (k - 1) us).errors :=
  pairs_cons h

/-- Where no operator up to a level follows, and none of the next, none up to the next follows. -/
theorem operator?_level_succ {ts : List Token} (hlow : operator? (·.level ≤ k) ts = none)
    (hnext : operator? (·.level == k + 1) ts = none) : operator? (·.level ≤ k + 1) ts = none := by
  rw [operator?, Option.filter_eq_none_iff] at *
  intro op hop
  have hne : ¬op.level ≤ k := by simpa using hlow op hop
  have hne' : ¬op.level = k + 1 := by simpa using hnext op hop
  simp only [decide_eq_true_eq]
  omega

/-- No operator up to a level stands behind what stands at this level. -/
theorem operator?_drop_levelTo :
    operator? (·.level ≤ k) (ts.drop (levelTo total k ts).used) = none := by
  have hused : (levelTo total k ts).used = (unary total ts).used +
      (pairs (·.level ≤ k) (unary total) (ts.drop (unary total ts).used)).used := rfl
  rw [hused, ← List.drop_drop]
  exact operator?_drop_pairs _ _ _

/-- What is read up to the next level begins with what stands at a level. -/
theorem operandsTo_succ : (operandsTo total (k + 1) ts).map (·.collapseTo k) =
    ((pairs (·.level ≤ k + 1) (unary total) (ts.drop (levelTo total k ts).used)).map
      fun rest => (⟨(levelTo total k ts).value, rest⟩ : Flat).collapseTo k).after
        (levelTo total k ts).used (levelTo total k ts).errors := by
  -- the operators of this level begin where those of the tighter levels end
  have hsplit := pairs_split (p := (·.level ≤ k)) (q := (·.level ≤ k + 1))
    (fun op hop => by simp only [decide_eq_true_eq] at hop ⊢; omega) (unary total)
      (ts.drop (unary total ts).used)
  rw [List.drop_drop] at hsplit
  rw [operandsTo, hsplit]
  simp only [Reply.map_after, Reply.map_map, Reply.after_after]
  refine congrArg (Reply.after _ _) (Reply.map_congr ?_)
  refine Flat.collapseTo_append_of_level_le (fun x hx => ?_) fun x hx => ?_
  · simpa using forall_mem_pairs _ _ _ x hx
  · -- were it not above the level, it would have been taken before
    have hfront := head?_pairs hx
    have hstop := operator?_drop_levelTo total (k := k) ts
    rw [operator?, Option.filter_eq_some_iff] at hfront
    rw [operator?, Option.filter_eq_none_iff] at hstop
    simpa using hstop x.1 hfront.1

variable {ts}

/-- **What is behind a level collapses to the pairs of the next one.** -/
theorem collapseTo_pairs (hstop : operator? (·.level ≤ k) ts = none) (e : Expr) :
    (pairs (·.level ≤ k + 1) (unary total) ts).map (fun rest => (⟨e, rest⟩ : Flat).collapseTo k) =
      (levelPairs total (k + 1) ts).map (⟨e, ·⟩) := by
  unfold levelPairs
  induction ts using pairs_induct (·.level == k + 1) (levelTo total (k + 1 - 1)) generalizing e with
  | stop ts hop =>
    rw [pairs_of_none hop, pairs_of_none (operator?_level_succ hstop hop)]
    exact Reply.map_congr (Flat.collapseTo_single k e)
  | step t rest op hop ih =>
    have hlevel : op.level = k + 1 := eq_of_beq (of_operator? hop)
    have hall : operator? (·.level ≤ k + 1) (t :: rest) = some op :=
      operator?_mono (fun op hop => by simp only [beq_iff_eq, decide_eq_true_eq] at hop ⊢; omega)
        hop
    rw [pairs_cons hop, pairs_cons hall]
    rw [Nat.add_sub_cancel] at ih ⊢
    -- `op` keeps what is behind it apart, and that begins with an operand that stands at the level
    have hbehind := ih (operator?_drop_levelTo total rest) (levelTo total k rest).value
    have happend : ∀ f : Flat, ((⟨e, []⟩ : Flat).append op f).collapseTo k =
        (⟨e, []⟩ : Flat).append op (f.collapseTo k) := fun f => by
      rw [Flat.collapseTo_append _ f (by omega), Flat.collapseTo_single]
    calc _ = (((operandsTo total (k + 1) rest).map (·.collapseTo k)).map
          ((⟨e, []⟩ : Flat).append op)).after 1 [] := by
            simp only [operandsTo, Reply.map_after, Reply.map_map, Reply.after_after,
              List.nil_append, ← happend]
            rfl
      _ = (((levelPairs total (k + 1) (rest.drop (levelTo total k rest).used)).map
          fun rest' => (⟨e, []⟩ : Flat).append op ⟨(levelTo total k rest).value, rest'⟩).after
            (1 + (levelTo total k rest).used) (levelTo total k rest).errors) := by
            rw [operandsTo_succ, Reply.map_after, hbehind, Reply.map_map, Reply.after_after,
              List.nil_append]
            rfl

/-- **One level up:** what stands at a level, and the pairs of the next level behind it, gathered in
a run. -/
theorem levelTo_succ (hk : 2 ≤ k) (ts : List Token) : levelTo total (k + 1) ts =
    ((levelPairs total (k + 1) (ts.drop (levelTo total k ts).used)).map
      fun rest => ((Run.single (levelTo total k ts).value).extendAll rest).close).after
        (levelTo total k ts).used (levelTo total k ts).errors := by
  have hstop := operator?_drop_levelTo total (k := k) ts
  calc levelTo total (k + 1) ts
      = ((operandsTo total (k + 1) ts).map (·.collapseTo k)).map fun f =>
        (f.collapse (k + 1)).head := by
        rw [levelTo, Reply.map_map]
        exact Reply.map_congr (congrArg Flat.head (Flat.collapseTo_succ hk _))
    _ = ((levelPairs total (k + 1) (ts.drop (levelTo total k ts).used)).map
          fun rest => ((⟨(levelTo total k ts).value, rest⟩ : Flat).collapse (k + 1)).head).after
            (levelTo total k ts).used (levelTo total k ts).errors := by
        rw [operandsTo_succ, Reply.map_after, collapseTo_pairs total hstop, Reply.map_map]
    _ = _ := by
        refine congrArg (Reply.after _ _) (Reply.map_congr ?_)
        -- all that is left is of one level
        have hlevels : ∀ p ∈ (levelPairs total (k + 1) (ts.drop (levelTo total k ts).used)).value,
            p.1.level = k + 1 := fun p hp => eq_of_beq (forall_mem_pairs _ _ _ p hp)
        rw [Flat.collapse, Flat.collapseFrom_of_level hlevels]

/-- Below the tightest level there are no operators. -/
theorem levelTo_tight (hk : k < 3) (ts : List Token) : levelTo total k ts = unary total ts := by
  have hnone : operator? (·.level ≤ k) (ts.drop (unary total ts).used) = none := by
    rw [operator?, Option.filter_eq_none_iff]
    intro op _
    have hlow := op.three_le_level
    simp only [decide_eq_true_eq]
    omega
  rw [levelTo, operandsTo, pairs_of_none hnone]
  simp [Reply.map, Reply.after, Flat.collapseTo_single]

/-- The operands of an expression are the pairs of all levels. -/
theorem operandsAfter_eq (first : Expr) (ts : List Token) :
    operandsAfter total first ts = (pairs (·.level ≤ 12) (unary total) ts).map (⟨first, ·⟩) := by
  induction ts using pairs_induct (·.level ≤ 12) (unary total) generalizing first with
  | stop ts hop =>
    rw [pairs_of_none hop]
    -- every binary operator is of some level up to the loosest, so none stands here
    cases ts with
    | nil => rw [operandsAfter]; rfl
    | cons t rest =>
      have hkind : t.kind.binary? = none := by
        rw [operator?, Option.filter_eq_none_iff] at hop
        refine Option.eq_none_iff_forall_ne_some.mpr fun op hsome => ?_
        exact hop op hsome (decide_eq_true op.level_le_twelve)
      rw [operandsAfter, hkind]
      rfl
  | step t rest op hop ih =>
    have hkind : t.kind.binary? = some op := (Option.filter_eq_some_iff.mp hop).1
    rw [operandsAfter, hkind, operands, ih, pairs_cons hop]
    simp [Reply.map, Reply.after, Nat.add_assoc]

/-- **At the loosest level** stands what is read all at once. -/
theorem map_group_operands (ts : List Token) :
    (operands total ts).map Flat.group = levelTo total 12 ts := by
  rw [operands, operandsAfter_eq]
  rfl

end Levels

end Parser

end OperandOrder
