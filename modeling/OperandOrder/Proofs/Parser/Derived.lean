import OperandOrder.Proofs.RoundTrip

/-!
# What derived trees look like

A derivation never needs a parenthesis that is not among its tokens: `Derives.rank` says how loosely
the tree of a derivation binds at most, so that no child is wrapped where it stands
(`not_wraps_of_rank`). Hence derived trees have all their parentheses (`Derives.explicit`), and
their output has one word for each token (`Derives.length_eq`).

Leftmost operands of the same level are where ranks do not say enough: there it is another operator
that keeps the operand from being wrapped. `levelTree_elim` packs this up as an induction over the
runs of a level.
-/

namespace OperandOrder

open Fragment

/-! ### Positions that do not wrap -/

/-- Where no parenthesis is needed, none is printed. -/
theorem Fragment.wrap_of_not_wraps {position : Position} {form : Form}
    (h : position.wraps form = false) (fs : List Fragment) : wrap position form fs = fs := by
  rw [wrap, if_neg (by rw [h]; exact Bool.false_ne_true)]

/-- Where no parenthesis is needed, none is put in. -/
theorem Position.mark_of_not_wraps {position : Position} {form : Form}
    (h : position.wraps form = false) (e : Expr) : position.mark form e = e := by
  rw [mark, if_neg (by rw [h]; exact Bool.false_ne_true)]

/-- An operand that binds more tightly than its parent is not wrapped. -/
theorem not_wraps_of_rank_lt {parent : BinaryOp} {form : Form} (h : form.rank < parent.level)
    (leftmost : Bool) : (Position.operand parent leftmost).wraps form = false := by
  have hparent := level_bounds parent
  cases form with
  | conditional =>
    change 13 < parent.level at h
    omega
  | infixed op =>
    change op.level < parent.level at h
    have hlooser : ¬parent.level < op.level := by omega
    have hother : ¬op.level = parent.level := by omega
    simp [Position.wraps, hlooser, hother]
  | _ => rfl

/-- **What binds tightly enough is not wrapped.** -/
theorem not_wraps_of_rank {position : Position} {form : Form} (h : form.rank ≤ position.rank)
    (hposition : ∀ parent leftmost, position ≠ .operand parent leftmost) :
    position.wraps form = false := by
  -- outside of operands, the rank of a position is the loosest that it takes without parentheses
  cases position with
  | operand parent leftmost => exact absurd rfl (hposition parent leftmost)
  | receiver =>
    cases form with
    | infixed op =>
      have hlevel := level_bounds op
      change op.level ≤ 1 at h
      omega
    | conditional => exact absurd h (by decide)
    | unary op => exact absurd h (by change ¬2 ≤ 1; decide)
    | _ => rfl
  | unaryOperand =>
    cases form with
    | infixed op =>
      have hlevel := level_bounds op
      change op.level ≤ 2 at h
      omega
    | conditional => exact absurd h (by decide)
    | _ => rfl
  | condition =>
    cases form with
    | conditional => exact absurd h (by decide)
    | _ => rfl

/-- A run under one operator is not wrapped as the leftmost operand of another one of its level. -/
theorem not_wraps_of_ne {parent op : BinaryOp} (hlevel : op.level = parent.level)
    (hne : op ≠ parent) : (Position.operand parent true).wraps (.infixed op) = false := by
  simp [Position.wraps, hlevel, hne]

/-! ### Runs of a level -/

/-- **Induction over the runs of a level.** From the first operand on, each run makes a node with
what is before it as its leftmost operand, which is never wrapped there. -/
theorem levelTree_elim {motive : List (BinaryOp × Expr) → Expr → Prop} {k : Nat} {e : Expr}
    {rest : List (BinaryOp × Expr)} (he : e.form.rank ≤ k) (hrest : ∀ p ∈ rest, p.1.level = k + 1)
    (start : motive [] e)
    (step : ∀ done later x op y run, rest = done ++ (((y :: run).map (op, ·)) ++ later) →
      motive done x → (Position.operand op true).wraps x.form = false →
        motive (done ++ (y :: run).map (op, ·))
          (.join (x.span.merge ((y :: run).getLastD x).span) op (x :: y :: run))) :
    motive rest (levelTree e rest) := by
  -- what is left of the operands, and what has been made of those before
  have hruns : ∀ x left done, rest = done ++ left → motive done x →
      (∀ p ∈ left.head?, (Position.operand p.1 true).wraps x.form = false) →
        motive rest (levelTree x left) := by
    intro x left
    induction x, left using levelTree.induct with
    | case1 x =>
      intro done hdone hx _
      rw [List.append_nil] at hdone
      rwa [levelTree, hdone]
    | case2 x op y left run ih =>
      intro done hdone hx hwraps
      rw [levelTree]
      have hrun : run.map (op, ·) = (op, y) :: left.takeWhile (·.1 == op) := by
        have hop : ∀ p ∈ left.takeWhile (·.1 == op), (op, p.2) = id p :=
          fun p hp => Prod.ext (eq_of_mem_takeWhile hp).symm rfl
        rw [List.map_cons, List.map_map]
        refine congrArg ((op, y) :: ·) ?_
        exact (List.map_congr_left hop).trans (List.map_id _)
      have hsplit : rest = done ++ (run.map (op, ·) ++ left.dropWhile (·.1 == op)) := by
        rw [hdone, hrun, List.cons_append, List.takeWhile_append_dropWhile]
      refine ih (done ++ run.map (op, ·)) (by rw [hsplit, List.append_assoc])
        (step done _ x op y _ hsplit hx (hwraps (op, y) rfl)) fun p hp => ?_
      -- the next run is under another operator of the same level
      have hmem : p ∈ left.dropWhile (·.1 == op) := List.mem_of_mem_head? hp
      have hlevel : op.level = p.1.level := by
        rw [hrest (op, y) (by rw [hdone]; simp), hrest p (by rw [hsplit]; simp [hmem])]
      rw [Expr.form_join]
      exact not_wraps_of_ne hlevel (ne_of_mem_head?_dropWhile hp).symm
  refine hruns e rest [] rfl start fun p hp => not_wraps_of_rank_lt ?_ true
  rw [hrest p (List.mem_of_mem_head? hp)]
  omega

/-- A level binds at most as loosely as its operators do. -/
theorem rank_levelTree {k : Nat} {e : Expr} {rest : List (BinaryOp × Expr)} (he : e.form.rank ≤ k)
    (hrest : ∀ p ∈ rest, p.1.level = k + 1) : (levelTree e rest).form.rank ≤ k + 1 := by
  refine levelTree_elim (motive := fun _ x => x.form.rank ≤ k + 1) he hrest (by omega) ?_
  intro done later x op y run hsplit _ _
  have hop : (op, y) ∈ rest := by rw [hsplit]; simp
  rw [Expr.form_join]
  exact (hrest _ hop).le

/-- The operands of a run are operands of the level. -/
theorem mem_of_run {rest done later : List (BinaryOp × Expr)} {op : BinaryOp} {run : List Expr}
    (hsplit : rest = done ++ (run.map (op, ·) ++ later)) : ∀ z ∈ run, (op, z) ∈ rest := by
  intro z hz
  rw [hsplit]
  exact List.mem_append_right _ (List.mem_append_left _ (List.mem_map_of_mem hz))

/-- Nor are the other operands of a run wrapped. -/
theorem not_wraps_of_run {k : Nat} {rest done later : List (BinaryOp × Expr)} {op : BinaryOp}
    {run : List Expr} (hrest : ∀ p ∈ rest, p.1.level = k + 1 ∧ p.2.form.rank < k + 1)
    (hsplit : rest = done ++ (run.map (op, ·) ++ later)) :
    ∀ z ∈ run, (Position.operand op false).wraps z.form = false := by
  intro z hz
  obtain ⟨hlevel, hrank⟩ := hrest _ (mem_of_run hsplit z hz)
  have hlevel : op.level = k + 1 := hlevel
  exact not_wraps_of_rank_lt (by rwa [hlevel]) false

/-! ### Ranks -/

/-- **How loosely what is derived binds** at most. -/
def Symbol.RankBound : (s : Symbol) → s.Value → Prop
  | .level k, (e : Expr) => e.form.rank ≤ k
  | .members, (e : Expr) | .primary, (e : Expr) => e.form.rank ≤ 1
  | .tail k, (rest : List (BinaryOp × Expr)) => ∀ p ∈ rest, p.1.level = k ∧ p.2.form.rank < k
  | .expr, _ | .args, _ | .list, _ => True

/-- **A derivation bounds the rank of its tree.** One case for each rule; only the rules of a level
look at operators. -/
theorem Derives.rank {s : Symbol} {ts : List Token} {v : s.Value} (h : Derives s ts v) :
    s.RankBound v := by
  -- an expression may be of any rank; below it the grammar goes down level by level
  induction h with
  | plain _ _ => trivial
  | conditional _ _ _ _ _ _ _ _ => trivial
  | level _ _ _ ihe ihrest => exact rank_levelTree ihe fun p hp => (ihrest p hp).1
  | last => exact fun p hp => absurd hp List.not_mem_nil
  | next _ hop _ _ ihe ihrest =>
    exact List.forall_mem_cons.mpr ⟨⟨hop, Nat.lt_succ_of_le ihe⟩, ihrest⟩
  | unary _ _ _ => exact Nat.le_refl 2
  | operand _ ih =>
    have hmembers : _ ≤ 1 := ih
    exact hmembers.trans (by decide)
  | first _ ih => exact ih
  | field _ _ _ _ => exact Nat.le_refl 1
  | method _ _ _ _ _ _ => exact Nat.le_refl 1
  | literal _ => exact Nat.le_refl 1
  | ident _ => exact Nat.le_refl 1
  | call _ _ _ => exact Nat.le_refl 1
  | paren _ _ _ _ => exact Nat.le_refl 1
  | noArgs _ _ => trivial
  | someArgs _ _ _ => trivial
  | lastArg _ _ _ => trivial
  | nextArg _ _ _ _ _ => trivial

/-- A condition needs no parenthesis. -/
theorem Derives.condition_not_wraps {ts : List Token} {e : Expr} (h : Derives (.level 12) ts e) :
    Position.condition.wraps e.form = false :=
  not_wraps_of_rank h.rank nofun

/-- The operand of a sign needs no parenthesis. -/
theorem Derives.operand_not_wraps {ts : List Token} {e : Expr} (h : Derives (.level 2) ts e) :
    Position.unaryOperand.wraps e.form = false :=
  not_wraps_of_rank h.rank nofun

/-- What stands in front of a member needs no parenthesis. -/
theorem Derives.receiver_not_wraps {ts : List Token} {e : Expr} (h : Derives .members ts e) :
    Position.receiver.wraps e.form = false :=
  not_wraps_of_rank h.rank nofun

/-! ### Derived trees have their parentheses -/

namespace Expr

/-- Trees that have their parentheses are left as they are. -/
theorem explicitAll_eq_self {es : List Expr} (h : ∀ e ∈ es, e.explicit = e) :
    explicitAll es = es := by
  induction es with
  | nil => rfl
  | cons e es ih =>
    rw [explicitAll, h e (by simp), ih fun x hx => h x (List.mem_cons_of_mem e hx)]

/-- Operands that have their parentheses and need no other are left as they are. -/
theorem explicitOperands_eq_self {op : BinaryOp} {es : List Expr} (h : ∀ e ∈ es, e.explicit = e)
    (hwraps : ∀ e ∈ es, (Position.operand op false).wraps e.form = false) :
    explicitOperands op false es = es := by
  induction es with
  | nil => rfl
  | cons e es ih =>
    rw [explicitOperands, Position.mark_of_not_wraps (hwraps e (by simp)), h e (by simp),
      ih (fun x hx => h x (List.mem_cons_of_mem e hx)) fun x hx => hwraps x
        (List.mem_cons_of_mem e hx)]

/-- Parentheses are put into a node through its operands, however many they are. -/
theorem explicit_join (s : Span) (op : BinaryOp) (es : List Expr) :
    (join s op es).explicit = join s op (explicitOperands op true es) := by
  match es with
  | [] => rfl
  | [_] => rfl
  | [_, _] => rfl
  | _ :: _ :: _ :: _ => rfl

/-- Operands that are not wrapped. -/
theorem explicit_join_eq_self {s : Span} {op : BinaryOp} {x : Expr} {es : List Expr}
    (hx : x.explicit = x) (hwraps : (Position.operand op true).wraps x.form = false)
    (hes : ∀ e ∈ es, e.explicit = e)
    (hwraps' : ∀ e ∈ es, (Position.operand op false).wraps e.form = false) :
    (join s op (x :: es)).explicit = join s op (x :: es) := by
  rw [explicit_join, explicitOperands, Position.mark_of_not_wraps hwraps, hx,
    explicitOperands_eq_self hes hwraps']

end Expr

/-- All the trees that a derivation stands for have their parentheses. -/
def Symbol.IsExplicit : (s : Symbol) → s.Value → Prop
  | .tail _, (rest : List (BinaryOp × Expr)) => ∀ p ∈ rest, p.2.explicit = p.2
  | .args, (as : Arguments) | .list, (as : Arguments) => ∀ e ∈ as.list, e.explicit = e
  | .expr, (e : Expr) | .level _, (e : Expr) | .members, (e : Expr) | .primary, (e : Expr) =>
    e.explicit = e

/-- **The tree of a level has its parentheses,** if the operands have theirs: an operand binds
tighter than the level, and the tree of a run stands leftmost in the next, where it needs none. -/
theorem explicit_levelTree {k : Nat} {e : Expr} {rest : List (BinaryOp × Expr)}
    (he : e.form.rank ≤ k) (hrest : ∀ p ∈ rest, p.1.level = k + 1 ∧ p.2.form.rank < k + 1)
    (hexplicit : e.explicit = e) (hexplicits : ∀ p ∈ rest, p.2.explicit = p.2) :
    (levelTree e rest).explicit = levelTree e rest := by
  refine levelTree_elim (motive := fun _ x => x.explicit = x) he (fun p hp => (hrest p hp).1)
    hexplicit ?_
  intro done later x op y run hsplit hx hwraps
  exact Expr.explicit_join_eq_self hx hwraps
    (fun z hz => hexplicits _ (mem_of_run hsplit z hz)) (not_wraps_of_run hrest hsplit)

/-- **Derived trees have all their parentheses.** -/
theorem Derives.explicit {s : Symbol} {ts : List Token} {v : s.Value} (h : Derives s ts v) :
    s.IsExplicit v := by
  -- Wherever the grammar puts a child, it is tight enough for its place, so no mark is added.
  induction h with
  | plain _ ih => exact ih
  | conditional hc _ _ _ _ ihc ihy ihn =>
    change Expr.explicit _ = _ at ihc ihy ihn
    change Expr.explicit _ = _
    rw [Expr.explicit, Position.mark_of_not_wraps hc.condition_not_wraps, ihc, ihy, ihn]
  | level _ he hrest ihe ihrest => exact explicit_levelTree he.rank hrest.rank ihe ihrest
  | last => exact fun p hp => absurd hp List.not_mem_nil
  | next _ _ _ _ ihe ihrest => exact List.forall_mem_cons.mpr ⟨ihe, ihrest⟩
  | unary _ he ih =>
    change Expr.explicit _ = _ at ih
    change Expr.explicit _ = _
    rw [Expr.explicit, Position.mark_of_not_wraps he.operand_not_wraps, ih]
  | operand _ ih => exact ih
  | first _ ih => exact ih
  | field he _ _ ih =>
    change Expr.explicit _ = _ at ih
    change Expr.explicit _ = _
    rw [Expr.explicit, Position.mark_of_not_wraps he.receiver_not_wraps, ih]
  | method he _ _ _ ihe ihas =>
    change Expr.explicit _ = _ at ihe
    change Expr.explicit _ = _
    rw [Expr.explicit, Position.mark_of_not_wraps he.receiver_not_wraps, ihe,
      Expr.explicitAll_eq_self ihas]
  | literal _ => rfl
  | ident _ => rfl
  | call _ _ ih =>
    change Expr.explicit _ = _
    rw [Expr.explicit, Expr.explicitAll_eq_self ih]
    rfl
  | paren _ _ _ ih =>
    change Expr.explicit _ = _ at ih
    change Expr.explicit _ = _
    rw [Expr.explicit, ih]
  | noArgs _ _ => exact fun e he => absurd he List.not_mem_nil
  | someArgs _ _ ih => exact ih
  | lastArg _ _ ih => exact List.forall_mem_singleton.mpr ih
  | nextArg _ _ _ ihe ihas => exact List.forall_mem_cons.mpr ⟨ihe, ihas⟩

/-! ### The output of what is derived -/

/-- The output of operators with the operands behind them. -/
def tailFragments (rest : List (BinaryOp × Expr)) : List Fragment :=
  rest.flatMap fun p => [.space, .text p.1.symbol, .space] ++ p.2.fragments

@[simp] theorem tailFragments_nil : tailFragments [] = [] := rfl

/-- The output of a tail, one operator at a time. -/
theorem tailFragments_cons (op : BinaryOp) (e : Expr) (rest : List (BinaryOp × Expr)) :
    tailFragments ((op, e) :: rest) =
      [.space, .text op.symbol, .space] ++ (e.fragments ++ tailFragments rest) := by
  rw [tailFragments, List.flatMap_cons, List.append_assoc]
  rfl

/-- The output of two tails, one after the other. -/
@[simp] theorem tailFragments_append (xs ys : List (BinaryOp × Expr)) :
    tailFragments (xs ++ ys) = tailFragments xs ++ tailFragments ys :=
  List.flatMap_append

namespace Expr

/-- The output of a node is that of its operands, however many they are. -/
theorem fragments_join (s : Span) (op : BinaryOp) (es : List Expr) :
    (join s op es).fragments = operandFragments op true es := by
  unfold join
  split
  · simp [fragments, operandFragments]
  · rw [fragments]

/-- Operands that need no parentheses are printed like the tail of a level. -/
theorem operandFragments_eq_tailFragments {op : BinaryOp} {es : List Expr}
    (h : ∀ e ∈ es, (Position.operand op false).wraps e.form = false) :
    operandFragments op false es = tailFragments (es.map (op, ·)) := by
  induction es with
  | nil => rfl
  | cons e es ih =>
    rw [operandFragments, if_neg Bool.false_ne_true, wrap_of_not_wraps (h e (by simp)),
      ih fun x hx => h x (List.mem_cons_of_mem e hx), List.map_cons, tailFragments_cons,
      List.append_assoc]

/-- A node of which no operand needs a parenthesis is printed like a level. -/
theorem fragments_join_of_not_wraps (s : Span) {op : BinaryOp} {x : Expr} {es : List Expr}
    (hwraps : (Position.operand op true).wraps x.form = false)
    (hwraps' : ∀ e ∈ es, (Position.operand op false).wraps e.form = false) :
    (join s op (x :: es)).fragments = x.fragments ++ tailFragments (es.map (op, ·)) := by
  rw [fragments_join, operandFragments, if_pos rfl, List.nil_append, wrap_of_not_wraps hwraps,
    operandFragments_eq_tailFragments hwraps']

/-- A conditional with a condition that needs no parenthesis. -/
theorem fragments_conditional_of_not_wraps (s : Span) {cond : Expr}
    (h : Position.condition.wraps cond.form = false) (yes no : Expr) :
    (conditional s cond yes no).fragments = cond.fragments ++ ([.space, .text "?", .space] ++
      (yes.fragments ++ ([.space, .text ":", .space] ++ no.fragments))) := by
  rw [fragments, wrap_of_not_wraps h]
  simp only [List.append_assoc]

/-- A sign with an operand that needs no parenthesis. There may be a gap between two signs. -/
theorem fragments_unary_of_not_wraps (s : Span) (op : UnaryOp) {operand : Expr}
    (h : Position.unaryOperand.wraps operand.form = false) :
    (unary s op operand).fragments =
      .text op.symbol :: (signGap op operand.form ++ operand.fragments) := by
  rw [fragments, wrap_of_not_wraps h]
  rfl

/-- The access to a field of what needs no parenthesis. -/
theorem fragments_field_of_not_wraps (s : Span) {receiver : Expr}
    (h : Position.receiver.wraps receiver.form = false) (name : String) :
    (field s receiver name).fragments = receiver.fragments ++ [.text ".", .text name] := by
  rw [fragments, wrap_of_not_wraps h]

/-- The call of a method of what needs no parenthesis. -/
theorem fragments_method_of_not_wraps (s : Span) {receiver : Expr} (hreceiver : receiver ≠ .absent)
    (h : Position.receiver.wraps receiver.form = false) (name : String) (args : List Expr) :
    (call s receiver name args).fragments = receiver.fragments ++ (.text "." :: .text name ::
      (.text "(" :: argumentFragments true args ++ [.text ")"])) := by
  rw [fragments_call, if_neg hreceiver, wrap_of_not_wraps h]
  simp only [List.append_assoc, List.nil_append, List.cons_append]

/-- Arguments are printed one at a time, as long as more of them follow. -/
theorem argumentFragments_cons {e : Expr} {es : List Expr} (h : es ≠ []) :
    argumentFragments true (e :: es) =
      e.fragments ++ (.text "," :: .space :: argumentFragments true es) := by
  cases es with
  | nil => exact absurd rfl h
  | cons x es => simp [argumentFragments]

end Expr

/-- **The tree of a level is printed like the level:** the first operand and then the tail, since no
operand needs a parenthesis. -/
theorem fragments_levelTree {k : Nat} {e : Expr} {rest : List (BinaryOp × Expr)}
    (he : e.form.rank ≤ k) (hrest : ∀ p ∈ rest, p.1.level = k + 1 ∧ p.2.form.rank < k + 1) :
    (levelTree e rest).fragments = e.fragments ++ tailFragments rest := by
  refine levelTree_elim (motive := fun done x => x.fragments = e.fragments ++ tailFragments done) he
    (fun p hp => (hrest p hp).1) (List.append_nil _).symm ?_
  intro done later x op y run hsplit hx hwraps
  rw [Expr.fragments_join_of_not_wraps _ hwraps (not_wraps_of_run hrest hsplit), hx,
    tailFragments_append, List.append_assoc]

/-- **The output of what is derived.** -/
def Symbol.output : (s : Symbol) → s.Value → List Fragment
  | .tail _, (rest : List (BinaryOp × Expr)) => tailFragments rest
  | .args, (as : Arguments) => .text "(" :: Expr.argumentFragments true as.list ++ [.text ")"]
  | .list, (as : Arguments) => Expr.argumentFragments true as.list ++ [.text ")"]
  | .expr, (e : Expr) | .level _, (e : Expr) | .members, (e : Expr) | .primary, (e : Expr) =>
    e.fragments

/-- A call is printed as its name and its arguments in parentheses. -/
theorem output_plainCall (s : Span) (name : String) (as : Arguments) :
    (Expr.call s .absent name as.list).fragments = .text name :: Symbol.args.output as := by
  rw [Expr.fragments_call, if_pos rfl]
  rfl

theorem output_args (as : Arguments) :
    Symbol.args.output as = .text "(" :: Symbol.list.output as := rfl

/-- The last argument is printed in front of the sign that closes the list. -/
theorem output_lastArg (e : Expr) (close : Span) :
    Symbol.list.output ⟨[e], close⟩ = e.fragments ++ [.text ")"] := by
  simp [Symbol.output, Expr.argumentFragments]

/-- An argument that is not the last is printed in front of a comma. -/
theorem output_nextArg (e : Expr) {as : Arguments} (h : as.list ≠ []) :
    Symbol.list.output ⟨e :: as.list, as.close⟩ =
      e.fragments ++ (.text "," :: .space :: Symbol.list.output as) := by
  rw [Symbol.output, Expr.argumentFragments_cons h, List.append_assoc]
  rfl

/-- What is derived as an operand is there. -/
theorem Derives.ne_absent {ts : List Token} {e : Expr} (h : Derives .members ts e) :
    e ≠ .absent := by
  rintro rfl
  have hwhole : Symbol.members.ValueIsWhole (fun _ => True) (fun _ _ => True) Expr.absent :=
    h.isWhole fun _ _ => ⟨fun _ => trivial, fun _ _ => trivial⟩
  exact hwhole

/-- A list of arguments that is not closed at once has an argument. -/
theorem Derives.list_ne_nil {ts : List Token} {as : Arguments} (h : Derives .list ts as) :
    as.list ≠ [] := by
  cases h with
  | lastArg _ _ => exact List.cons_ne_nil _ _
  | nextArg _ _ _ => exact List.cons_ne_nil _ _

/-- **The output has one word for each token.** -/
theorem Derives.length_eq {s : Symbol} {ts : List Token} {v : s.Value} (h : Derives s ts v) :
    ts.length = (words (s.output v)).length := by
  -- One token for each word: parentheses are printed where the tree has them, and nowhere else.
  induction h with
  | plain _ ih => exact ih
  | conditional hc _ _ _ _ ihc ihy ihn =>
    simp only [Symbol.output] at ihc ihy ihn ⊢
    rw [Expr.fragments_conditional_of_not_wraps _ hc.condition_not_wraps]
    simp [ihc, ihy, ihn]
  | level _ he hrest ihe ihrest =>
    simp only [Symbol.output] at ihe ihrest ⊢
    rw [fragments_levelTree he.rank hrest.rank]
    simp [ihe, ihrest]
  | last => rfl
  | next _ _ _ _ ihe ihrest =>
    simp only [Symbol.output] at ihe ihrest ⊢
    rw [tailFragments_cons]
    simp [ihe, ihrest]
  | @unary t op ts e _ he ih =>
    simp only [Symbol.output] at ih ⊢
    rw [Expr.fragments_unary_of_not_wraps _ _ he.operand_not_wraps]
    simp [ih, Expr.words_signGap]
  | operand _ ih => exact ih
  | first _ ih => exact ih
  | field he _ _ ih =>
    simp only [Symbol.output] at ih ⊢
    rw [Expr.fragments_field_of_not_wraps _ he.receiver_not_wraps]
    simp [ih]
  | method he _ _ _ ihe ihas =>
    simp only [Symbol.output] at ihe ihas ⊢
    rw [Expr.fragments_method_of_not_wraps _ he.ne_absent he.receiver_not_wraps]
    simp [ihe, ihas]
  | literal _ => rfl
  | ident _ => rfl
  | call _ _ ih =>
    change _ = (words (Expr.fragments _)).length
    rw [output_plainCall]
    simp [ih]
  | paren _ _ _ ih =>
    simp only [Symbol.output] at ih ⊢
    rw [Expr.fragments]
    simp [ih]
  | noArgs _ _ => rfl
  | someArgs _ _ ih =>
    rw [output_args]
    simp [ih]
  | lastArg _ _ ih =>
    change _ = (words (Expr.fragments _)).length at ih
    rw [output_lastArg]
    simp [ih]
  | nextArg _ _ has ihe ihas =>
    change _ = (words (Expr.fragments _)).length at ihe
    rw [output_nextArg _ has.list_ne_nil]
    simp [ihe, ihas]

end OperandOrder
