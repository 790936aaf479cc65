import Mathlib.Data.List.TakeWhile
import OperandOrder.Proofs.Grammar

/-!
# Grouping operands, level by level

`Flat.collapse` goes through a flat sequence with an open run. `Flat.collapse_of_level` says what
comes of operands that are all joined by operators of one level: the `levelTree` of the grammar.
Operators of other levels cut a sequence into parts that are collapsed on their own
(`Flat.collapse_append`).

`Spread P ts f` says that the operands of `f` and the operators between them make up the tokens
`ts`, where `P` tells which tokens make up an operand. `Spread.collapse` carries derivations of the
operands over to the next level, and `Spread.derives` does so for all levels.
-/

namespace OperandOrder

/-! ### Runs -/

/-- The operators in front that are the same. -/
theorem eq_of_mem_takeWhile {op : BinaryOp} {rest : List (BinaryOp × Expr)} {p : BinaryOp × Expr}
    (hp : p ∈ rest.takeWhile (·.1 == op)) : p.1 = op := by
  have hbeq := List.mem_takeWhile_imp hp
  exact eq_of_beq hbeq

/-- The first operator behind these is another one. -/
theorem ne_of_mem_head?_dropWhile {op : BinaryOp} {rest : List (BinaryOp × Expr)}
    {p : BinaryOp × Expr} (hp : p ∈ (rest.dropWhile (·.1 == op)).head?) : p.1 ≠ op := by
  intro hop
  have hnot := List.head?_dropWhile_not (·.1 == op) rest
  rw [Option.mem_def.mp hp] at hnot
  exact absurd (beq_iff_eq.mpr hop) (by simpa using hnot)

namespace Run

/-- Several operands more. -/
def extendAll (run : Run) (rest : List (BinaryOp × Expr)) : Run :=
  rest.foldl (fun run p => run.extend p.1 p.2) run

/-- A run takes in operands of its operator one after another. -/
theorem extendAll_same (op : BinaryOp) (first : Expr) (others : List Expr)
    (rest : List (BinaryOp × Expr)) (h : ∀ p ∈ rest, p.1 = op) :
    (Run.joined op first others).extendAll rest = .joined op first (others ++ rest.map (·.2)) := by
  induction rest generalizing others with
  | nil => rw [List.map_nil, List.append_nil]; rfl
  | cons p rest ih =>
    have hp : p.1 = op := h p (by simp)
    have hextend : (Run.joined op first others).extend p.1 p.2 =
        .joined op first (others ++ [p.2]) := by
      rw [hp]
      exact if_pos rfl
    calc (Run.joined op first others).extendAll (p :: rest)
        = ((Run.joined op first others).extend p.1 p.2).extendAll rest := rfl
      _ = .joined op first (others ++ [p.2] ++ rest.map (·.2)) := by
        rw [hextend, ih _ fun q hq => h q (List.mem_cons_of_mem p hq)]
      _ = .joined op first (others ++ (p :: rest).map (·.2)) := by
        rw [List.append_assoc]
        rfl

/-- Another operator finds a run as it finds its node. -/
theorem extendAll_close (op : BinaryOp) (first : Expr) (others : List Expr)
    (rest : List (BinaryOp × Expr)) (h : ∀ p ∈ rest.head?, p.1 ≠ op) :
    ((Run.joined op first others).extendAll rest).close =
      ((Run.single (Run.joined op first others).close).extendAll rest).close := by
  cases rest with
  | nil => rfl
  | cons p rest =>
    have hp : ¬op = p.1 := fun hop => h p rfl hop.symm
    have hextend : (Run.joined op first others).extend p.1 p.2 =
        (Run.single (Run.joined op first others).close).extend p.1 p.2 := by
      exact if_neg hp
    change (((Run.joined op first others).extend p.1 p.2).extendAll rest).close = _
    rw [hextend]
    rfl

/-- **A run that takes all operands of a level** makes the tree of the level. -/
theorem close_extendAll (e : Expr) (rest : List (BinaryOp × Expr)) :
    ((Run.single e).extendAll rest).close = levelTree e rest := by
  induction e, rest using levelTree.induct with
  | case1 e => rw [levelTree]; rfl
  | case2 e op x rest run ih =>
    have hsplit : rest = rest.takeWhile (·.1 == op) ++ rest.dropWhile (·.1 == op) :=
      List.takeWhile_append_dropWhile.symm
    have hsame : ∀ p ∈ rest.takeWhile (·.1 == op), p.1 = op := fun p hp => eq_of_mem_takeWhile hp
    have hother : ∀ p ∈ (rest.dropWhile (·.1 == op)).head?, p.1 ≠ op :=
      fun p hp => ne_of_mem_head?_dropWhile hp
    -- the first run takes what `takeWhile` takes, and what is left begins with another operator
    have hextend : (Run.single e).extendAll ((op, x) :: rest) =
        (Run.joined op e run).extendAll (rest.dropWhile (·.1 == op)) := by
      change (Run.joined op e [x]).extendAll rest = _
      conv_lhs => rw [hsplit]
      rw [extendAll, List.foldl_append]
      exact congrArg (fun r : Run => r.extendAll _) (extendAll_same op e [x] _ hsame)
    rw [hextend, extendAll_close op e run _ hother, levelTree, ← ih]
    rfl

/-- The operator that comes last is that of the run. -/
theorem extend_of_last_ne {run : Run} {e : Expr} {rest : List (BinaryOp × Expr)} {op : BinaryOp}
    {x : Expr} (hrun : run = (Run.single e).extendAll rest) (h : ∀ p ∈ rest.getLast?, p.1 ≠ op) :
    run.extend op x = .joined op run.close [x] := by
  rcases List.eq_nil_or_concat' rest with rfl | ⟨init, p, rfl⟩
  · subst hrun
    rfl
  · have hp : ¬p.1 = op := h p (by simp)
    have hlast : run = ((Run.single e).extendAll init).extend p.1 p.2 := by
      rw [hrun, extendAll, List.foldl_append]
      rfl
    -- whether it lengthens a run or begins one, the operand leaves a run of its operator behind
    obtain ⟨first, others, hjoined⟩ : ∃ first others, run = .joined p.1 first others := by
      rw [hlast]
      cases (Run.single e).extendAll init with
      | single first => exact ⟨first, [p.2], rfl⟩
      | joined op' first others =>
        by_cases hop : op' = p.1
        · subst hop
          exact ⟨first, others ++ [p.2], if_pos rfl⟩
        · exact ⟨_, [p.2], if_neg hop⟩
    rw [hjoined]
    exact if_neg hp

end Run

/-- **A run of another operator behind a level** takes the tree of the level as its
leftmost operand. -/
theorem levelTree_append {e : Expr} {rest : List (BinaryOp × Expr)} {op : BinaryOp} (x : Expr)
    (run : List Expr) (h : ∀ p ∈ rest.getLast?, p.1 ≠ op) :
    ∃ s, levelTree e (rest ++ (x :: run).map (op, ·)) =
      .join s op (levelTree e rest :: x :: run) := by
  have hrest := Run.close_extendAll e rest
  have hextend : ((Run.single e).extendAll rest).extend op x =
      .joined op ((Run.single e).extendAll rest).close [x] := Run.extend_of_last_ne rfl h
  refine ⟨(levelTree e rest).span.merge (([x] ++ run).getLastD (levelTree e rest)).span, ?_⟩
  rw [← Run.close_extendAll, Run.extendAll, List.foldl_append]
  -- `x` opens a run of `op` on the closed level, and the others lengthen it
  change (((Run.single e).extendAll rest).extend op x |>.extendAll (run.map (op, ·))).close = _
  have hitems : (run.map (op, ·)).map (·.2) = run := by
    rw [List.map_map]
    exact List.map_id run
  rw [hextend, Run.extendAll_same op _ [x] _ (by simp), hrest, hitems]
  rfl

/-! ### Flat sequences -/

namespace Flat

/-- Two sequences with an operator between them. -/
def append (f : Flat) (op : BinaryOp) (g : Flat) : Flat :=
  ⟨f.head, f.tail ++ (op, g.head) :: g.tail⟩

/-- The operators between the operands. -/
def ops (f : Flat) : List BinaryOp := f.tail.map (·.1)

@[simp] theorem ops_append (f : Flat) (op : BinaryOp) (g : Flat) :
    (f.append op g).ops = f.ops ++ op :: g.ops := by
  simp [ops, append]

theorem collapseFrom_cons_same {level : Nat} {run : Run} {op : BinaryOp} {e : Expr}
    {rest : List (BinaryOp × Expr)} (h : op.level = level) :
    collapseFrom level run ((op, e) :: rest) = collapseFrom level (run.extend op e) rest := by
  rw [collapseFrom, if_pos h]

/-- An operator of another level closes the run. -/
theorem collapseFrom_cons_other {level : Nat} {run : Run} {op : BinaryOp} {e : Expr}
    {rest : List (BinaryOp × Expr)} (h : op.level ≠ level) :
    collapseFrom level run ((op, e) :: rest) =
      (⟨run.close, []⟩ : Flat).append op (collapseFrom level (.single e) rest) := by
  rw [collapseFrom, if_neg h]
  rfl

/-- Where all operators are of the level, one operand is left. -/
theorem collapseFrom_of_level {level : Nat} {run : Run} {rest : List (BinaryOp × Expr)}
    (h : ∀ p ∈ rest, p.1.level = level) :
    collapseFrom level run rest = ⟨(run.extendAll rest).close, []⟩ := by
  induction rest generalizing run with
  | nil => rfl
  | cons p rest ih =>
    rw [collapseFrom_cons_same (h p (by simp)), ih fun q hq => h q (List.mem_cons_of_mem p hq)]
    rfl

/-- **Operands of one level** collapse to the tree of the level. -/
theorem collapse_of_level {level : Nat} {e : Expr} {rest : List (BinaryOp × Expr)}
    (h : ∀ p ∈ rest, p.1.level = level) :
    (⟨e, rest⟩ : Flat).collapse level = ⟨levelTree e rest, []⟩ := by
  rw [collapse, collapseFrom_of_level h, Run.close_extendAll]

/-- **An operator of another level divides the row:** what is on its left and on its right is
collapsed on its own. -/
theorem collapseFrom_append {level : Nat} {run : Run} {rest : List (BinaryOp × Expr)}
    {op : BinaryOp} {g : Flat} (h : op.level ≠ level) :
    collapseFrom level run (rest ++ (op, g.head) :: g.tail) =
      (collapseFrom level run rest).append op (g.collapse level) := by
  induction rest generalizing run with
  | nil => exact collapseFrom_cons_other h
  | cons p rest ih =>
    by_cases hp : p.1.level = level
    · rw [List.cons_append, collapseFrom_cons_same hp, collapseFrom_cons_same hp, ih]
    · rw [List.cons_append, collapseFrom_cons_other hp, collapseFrom_cons_other hp, ih]
      rfl

/-- **An operator of another level** keeps what is on either side of it apart. -/
theorem collapse_append {level : Nat} (f : Flat) {op : BinaryOp} (g : Flat) (h : op.level ≠ level) :
    (f.append op g).collapse level = (f.collapse level).append op (g.collapse level) :=
  collapseFrom_append h

/-- The levels above 2 and up to `k`, tightest first. -/
def levelsTo (k : Nat) : List Nat := List.range' 3 (k - 2)

/-- All levels up to `k` collapsed. -/
def collapseTo (k : Nat) (f : Flat) : Flat := (levelsTo k).foldl collapse f

/-- One level more. -/
theorem collapseTo_succ {k : Nat} (hk : 2 ≤ k) (f : Flat) :
    f.collapseTo (k + 1) = (f.collapseTo k).collapse (k + 1) := by
  have hlevels : levelsTo (k + 1) = levelsTo k ++ [k + 1] := by
    rw [levelsTo, show k + 1 - 2 = k - 2 + 1 by omega, List.range'_1_concat, levelsTo,
      show 3 + (k - 2) = k + 1 by omega]
  rw [collapseTo, hlevels, List.foldl_append]
  rfl

theorem group_eq_collapseTo (f : Flat) : f.group = (f.collapseTo 12).head := rfl

/-- An operator that is looser than all levels divides the row. -/
theorem collapseTo_append {k : Nat} (f : Flat) {op : BinaryOp} (g : Flat) (h : k < op.level) :
    (f.append op g).collapseTo k = (f.collapseTo k).append op (g.collapseTo k) := by
  have hother : ∀ level ∈ levelsTo k, op.level ≠ level := by
    intro level hlevel
    have := List.mem_range'_1.mp hlevel
    omega
  -- one level at a time: `op` belongs to none of them, and keeps its two sides apart in each
  unfold collapseTo
  generalize levelsTo k = levels at hother
  induction levels generalizing f g with
  | nil => rfl
  | cons level levels ih =>
    rw [List.foldl_cons, collapse_append f g (hother level (by simp)),
      ih _ _ fun l hl => hother l (List.mem_cons_of_mem level hl)]
    rfl

/-- The operators that are left are those of other levels. -/
theorem ops_collapseFrom (level : Nat) (run : Run) (rest : List (BinaryOp × Expr)) :
    (collapseFrom level run rest).ops = (rest.map (·.1)).filter (·.level ≠ level) := by
  induction rest generalizing run with
  | nil => rfl
  | cons p rest ih =>
    by_cases hp : p.1.level = level
    · rw [collapseFrom_cons_same hp, ih, List.map_cons, List.filter_cons_of_neg (by simpa using hp)]
    · rw [collapseFrom_cons_other hp, ops_append, ih, List.map_cons,
        List.filter_cons_of_pos (by simpa using hp)]
      rfl

/-- Collapsed levels have no operators left. -/
theorem ops_collapseTo {k : Nat} {f : Flat} {op : BinaryOp} (h : op ∈ (f.collapseTo k).ops) :
    op ∈ f.ops ∧ op.level ∉ levelsTo k := by
  unfold collapseTo at h
  generalize levelsTo k = levels at h
  induction levels generalizing f with
  | nil => exact ⟨h, List.not_mem_nil⟩
  | cons level levels ih =>
    obtain ⟨hop, hlevels⟩ := ih h
    rw [collapse, ops_collapseFrom] at hop
    obtain ⟨hop, hlevel⟩ := List.mem_filter.mp hop
    refine ⟨hop, fun hmem => ?_⟩
    rcases List.mem_cons.mp hmem with heq | hmem
    · exact absurd heq (by simpa using hlevel)
    · exact hlevels hmem

/-- With all levels collapsed one operand is left. -/
theorem collapseTo_all (f : Flat) : f.collapseTo 12 = ⟨f.group, []⟩ := by
  have hops : (f.collapseTo 12).ops = [] := by
    refine List.eq_nil_iff_forall_not_mem.mpr fun op hop => ?_
    exact (ops_collapseTo hop).2 (BinaryOp.level_mem_levels op)
  rw [group_eq_collapseTo]
  generalize f.collapseTo 12 = g at hops
  obtain ⟨e, rest⟩ := g
  obtain rfl : rest = [] := List.map_eq_nil_iff.mp hops
  rfl

end Flat

/-! ### Sequences and their tokens -/

/-- **A flat sequence and its tokens,** where `P` tells which tokens make up an operand. -/
inductive Spread (P : List Token → Expr → Prop) : List Token → Flat → Prop
  | one {ts : List Token} {e : Expr} (he : P ts e) : Spread P ts ⟨e, []⟩
  | more {ts us : List Token} {t : Token} {op : BinaryOp} {e : Expr} {f : Flat} (he : P ts e)
    (ht : t.kind = .operator op) (hf : Spread P us f) :
    Spread P (ts ++ t :: us) ((⟨e, []⟩ : Flat).append op f)

/-- Two rows with an operator between them. -/
theorem Spread.append {P : List Token → Expr → Prop} {ts us : List Token} {t : Token}
    {op : BinaryOp} {f g : Flat} (hf : Spread P ts f) (ht : t.kind = .operator op)
    (hg : Spread P us g) :
    Spread P (ts ++ t :: us) (f.append op g) := by
  induction hf with
  | one he => exact .more he ht hg
  | more he ht' _ ih =>
    have hmore := Spread.more he ht' ih
    rwa [← List.cons_append, ← List.append_assoc] at hmore

/-- An open run, with the derivations of the operands it has taken. -/
def Run.Open (k : Nat) (us : List Token) (run : Run) : Prop :=
  ∃ ts vs e rest, us = ts ++ vs ∧ Derives (.level k) ts e ∧ Derives (.tail (k + 1)) vs rest ∧
    run = (Run.single e).extendAll rest

namespace Run.Open

variable {k : Nat} {us : List Token} {run : Run}

theorem single {ts : List Token} {e : Expr} (h : Derives (.level k) ts e) :
    Run.Open k ts (.single e) :=
  ⟨ts, [], e, [], (List.append_nil ts).symm, h, .last, rfl⟩

/-- **An open run takes one more operand** and stays open. -/
theorem extend (h : run.Open k us) {t : Token} {op : BinaryOp} {ts : List Token} {e : Expr}
    (ht : t.kind = .operator op) (hop : op.level = k + 1) (he : Derives (.level k) ts e) :
    (run.extend op e).Open k (us ++ t :: ts) := by
  obtain ⟨ts₀, vs, e₀, rest, rfl, he₀, hrest, rfl⟩ := h
  -- one more operator with its operand, at the end of the derivation
  have hone : Derives (.tail (k + 1)) (t :: ts) [(op, e)] := by
    have hnext := Derives.next ht hop he .last
    rwa [List.append_nil] at hnext
  refine ⟨ts₀, vs ++ t :: ts, e₀, rest ++ [(op, e)], List.append_assoc .., he₀,
    hrest.tail_append hone, ?_⟩
  rw [extendAll, extendAll, List.foldl_append]
  rfl

theorem close (h : run.Open k us) (hk : 2 ≤ k) : Derives (.level (k + 1)) us run.close := by
  obtain ⟨ts, vs, e, rest, rfl, he, hrest, rfl⟩ := h
  rw [close_extendAll]
  exact .level hk he hrest

end Run.Open

/-- What is behind an open run collapses, and the run is derived at the next level. -/
theorem Spread.collapseFrom {k : Nat} (hk : 2 ≤ k) {us vs : List Token} {run : Run} {t : Token}
    {op : BinaryOp} {f : Flat} (hrun : run.Open k us) (ht : t.kind = .operator op)
    (hf : Spread (Derives (.level k)) vs f) :
    Spread (Derives (.level (k + 1))) (us ++ t :: vs)
      (Flat.collapseFrom (k + 1) run ((op, f.head) :: f.tail)) := by
  -- an operator of the level lengthens the run, any other one closes it
  induction hf generalizing us run t op with
  | one he =>
    by_cases hop : op.level = k + 1
    · rw [Flat.collapseFrom_cons_same hop]
      exact .one ((hrun.extend ht hop he).close hk)
    · rw [Flat.collapseFrom_cons_other hop]
      exact .more (hrun.close hk) ht (.one (he.level_of_level hk))
  | @more ts vs t' op' e f he ht' _ ih =>
    by_cases hop : op.level = k + 1
    · have hlonger := ih (hrun.extend ht hop he) ht'
      rw [List.append_assoc] at hlonger
      rw [Flat.collapseFrom_cons_same hop]
      exact hlonger
    · rw [Flat.collapseFrom_cons_other hop]
      exact .more (hrun.close hk) ht (ih (.single he) ht')

/-- **One level up:** operands derived at one level collapse to operands derived at the next. -/
theorem Spread.collapse {k : Nat} (hk : 2 ≤ k) {ts : List Token} {f : Flat}
    (hf : Spread (Derives (.level k)) ts f) :
    Spread (Derives (.level (k + 1))) ts (f.collapse (k + 1)) := by
  cases hf with
  | one he => exact .one (he.level_of_level hk)
  | more he ht hf => exact Spread.collapseFrom hk (.single he) ht hf

/-- **Grouping gives a derivation,** if each operand has one. -/
theorem Spread.derives {ts : List Token} {f : Flat} (hf : Spread (Derives (.level 2)) ts f) :
    Derives (.level 12) ts f.group := by
  have hlevels : ∀ k, 2 ≤ k → Spread (Derives (.level k)) ts (f.collapseTo k) := by
    intro k hk
    induction k, hk using Nat.le_induction with
    | base => exact hf
    | succ k hk ih =>
      rw [Flat.collapseTo_succ hk]
      exact ih.collapse hk
  -- at the loosest level a single operand is left, which is the tree
  have hall := hlevels 12 (by omega)
  rw [Flat.collapseTo_all] at hall
  generalize f.group = e at hall
  cases hall with
  | one he => exact he

end OperandOrder
