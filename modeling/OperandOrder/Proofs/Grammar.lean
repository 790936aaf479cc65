import OperandOrder.Parser
import OperandOrder.Proofs.Whole

/-!
# The grammar of expressions

`Derives s ts v` says that the tokens `ts` are derived from the symbol `s`, and that `v` is what the
derivation stands for. The productions are

* `expr` → `level 12` | `level 12` `?` `expr` `:` `expr`
* `level k` → `level (k - 1)` (operator of level `k`, `level (k - 1)`)*, for `k` above 2
* `level 2` → unary operator, `level 2` | `members`
* `members` → `primary` (`.` name `args`?)*
* `primary` → literal | name `args`? | `(` `expr` `)`
* `args` → `(` `)` | `(` `expr` (`,` `expr`)* `)`

and nothing in them refers to how expressions are read. The operands of one level are put together
by `levelTree`: every maximal run of one operator becomes a node, which is the leftmost operand of
the next run.

`Derives.isWhole` says that what is derived is whole, and the lemmas before it with which tokens a
derivation begins.
-/

namespace OperandOrder

/-- **The tree of one level:** operands joined by operators of the same level, from the left. -/
def levelTree (e : Expr) : List (BinaryOp × Expr) → Expr
  | [] => e
  | (op, x) :: rest =>
    let run := x :: (rest.takeWhile (·.1 == op)).map (·.2)
    levelTree (.join (e.span.merge (run.getLastD e).span) op (e :: run))
      (rest.dropWhile (·.1 == op))
termination_by rest => rest.length
decreasing_by
  have := (List.dropWhile_suffix (l := rest) (·.1 == op)).length_le
  simp only [List.length_cons]
  omega

/-- **The symbols of the grammar.** -/
inductive Symbol where
  | expr
  /-- Operands joined by operators of level `k` and tighter; unary operators at level 2. -/
  | level (k : Nat)
  /-- Operators of level `k`, each with the operand behind it. -/
  | tail (k : Nat)
  | members
  | primary
  | args
  /-- The arguments of a call and the closing parenthesis. -/
  | list

/-- What a derivation from a symbol stands for. -/
abbrev Symbol.Value : Symbol → Type
  | .tail _ => List (BinaryOp × Expr)
  | .args | .list => Arguments
  | _ => Expr

/-- **Derivations.** -/
inductive Derives : (s : Symbol) → List Token → s.Value → Prop
  | plain {ts e} (h : Derives (.level 12) ts e) : Derives .expr ts e
  | conditional {cs ys ns : List Token} {q l : Token} {c y n : Expr}
    (hc : Derives (.level 12) cs c) (hq : q.kind = .question) (hy : Derives .expr ys y)
    (hl : l.kind = .colon) (hn : Derives .expr ns n) :
    Derives .expr (cs ++ q :: (ys ++ l :: ns)) (.conditional (c.span.merge n.span) c y n)
  | level {k : Nat} {ts us : List Token} {e : Expr} {rest : List (BinaryOp × Expr)} (hk : 2 ≤ k)
    (he : Derives (.level k) ts e) (hrest : Derives (.tail (k + 1)) us rest) :
    Derives (.level (k + 1)) (ts ++ us) (levelTree e rest)
  | last {k : Nat} : Derives (.tail k) [] []
  | next {k : Nat} {t : Token} {op : BinaryOp} {ts us : List Token} {e : Expr}
    {rest : List (BinaryOp × Expr)} (ht : t.kind = .operator op) (hop : op.level = k + 1)
    (he : Derives (.level k) ts e) (hrest : Derives (.tail (k + 1)) us rest) :
    Derives (.tail (k + 1)) (t :: (ts ++ us)) ((op, e) :: rest)
  | unary {t : Token} {op : UnaryOp} {ts : List Token} {e : Expr} (ht : t.kind.unary? = some op)
    (he : Derives (.level 2) ts e) :
    Derives (.level 2) (t :: ts) (.unary (t.span.merge e.span) op e)
  | operand {ts e} (h : Derives .members ts e) : Derives (.level 2) ts e
  | first {ts e} (h : Derives .primary ts e) : Derives .members ts e
  | field {ts : List Token} {e : Expr} {dot name : Token} (he : Derives .members ts e)
    (hdot : dot.kind = .dot) (hname : name.kind = .ident) :
    Derives .members (ts ++ [dot, name]) (.field (e.span.merge name.span) e name.text)
  | method {ts us : List Token} {e : Expr} {dot name : Token} {as : Arguments}
    (he : Derives .members ts e) (hdot : dot.kind = .dot) (hname : name.kind = .ident)
    (has : Derives .args us as) :
    Derives .members (ts ++ dot :: name :: us) (.call (e.span.merge as.close) e name.text as.list)
  | literal {t : Token} {kind : LiteralKind} (ht : t.kind.literalKind? = some kind) :
    Derives .primary [t] (.literal t.span kind t.text)
  | ident {t : Token} (ht : t.kind = .ident) : Derives .primary [t] (.ident t.span t.text)
  | call {t : Token} {us : List Token} {as : Arguments} (ht : t.kind = .ident)
    (has : Derives .args us as) :
    Derives .primary (t :: us) (.call (t.span.merge as.close) .absent t.text as.list)
  | paren {o c : Token} {ts : List Token} {e : Expr} (ho : o.kind = .leftParen)
    (he : Derives .expr ts e) (hc : c.kind = .rightParen) :
    Derives .primary (o :: (ts ++ [c])) (.paren (o.span.merge c.span) e)
  | noArgs {o c : Token} (ho : o.kind = .leftParen) (hc : c.kind = .rightParen) :
    Derives .args [o, c] ⟨[], c.span⟩
  | someArgs {o : Token} {us : List Token} {as : Arguments} (ho : o.kind = .leftParen)
    (has : Derives .list us as) : Derives .args (o :: us) as
  | lastArg {c : Token} {ts : List Token} {e : Expr} (he : Derives .expr ts e)
    (hc : c.kind = .rightParen) : Derives .list (ts ++ [c]) ⟨[e], c.span⟩
  | nextArg {comma : Token} {ts us : List Token} {e : Expr} {as : Arguments}
    (he : Derives .expr ts e) (hcomma : comma.kind = .comma) (has : Derives .list us as) :
    Derives .list (ts ++ comma :: us) ⟨e :: as.list, as.close⟩

namespace Derives

/-! ### Lower symbols -/

theorem level_of_level {k : Nat} {ts : List Token} {e : Expr} (hk : 2 ≤ k)
    (h : Derives (.level k) ts e) : Derives (.level (k + 1)) ts e := by
  have hlevel := level hk h last
  rwa [List.append_nil, levelTree] at hlevel

/-- A derivation of one level is one of every looser level. -/
theorem level_mono {k m : Nat} {ts : List Token} {e : Expr} (hk : 2 ≤ k) (hkm : k ≤ m)
    (h : Derives (.level k) ts e) : Derives (.level m) ts e := by
  induction m, hkm using Nat.le_induction with
  | base => exact h
  | succ m hkm ih => exact level_of_level (by omega) ih

/-- Two tails of a level, one behind the other. -/
theorem tail_append {k : Nat} {ts us : List Token} {xs ys : List (BinaryOp × Expr)}
    (h : Derives (.tail k) ts xs) (h' : Derives (.tail k) us ys) :
    Derives (.tail k) (ts ++ us) (xs ++ ys) := by
  induction xs generalizing ts with
  | nil =>
    cases h with
    | last => exact h'
  | cons x xs ih =>
    cases h with
    | next ht hop he hrest =>
      have hnext := next ht hop he (ih hrest)
      rwa [← List.append_assoc] at hnext

/-- Operands in front are derived from tokens in front. -/
theorem tail_split {k : Nat} {vs : List Token} {xs ys : List (BinaryOp × Expr)}
    (h : Derives (.tail k) vs (xs ++ ys)) :
    ∃ ts us, vs = ts ++ us ∧ Derives (.tail k) ts xs ∧ Derives (.tail k) us ys := by
  induction xs generalizing vs with
  | nil => exact ⟨[], vs, rfl, last, h⟩
  | cons x xs ih =>
    cases h with
    | next ht hop he hrest =>
      obtain ⟨ts, us, rfl, hxs, hys⟩ := ih hrest
      exact ⟨_, us, by rw [List.cons_append, List.append_assoc], next ht hop he hxs, hys⟩

/-! ### How a derivation begins -/

/-- What the first token of a derivation is not: a closing parenthesis, or, where members may
follow, a unary operator. -/
def Begins : Symbol → List Token → Prop
  | .members, ts | .primary, ts =>
    ∃ t us, ts = t :: us ∧ t.kind ≠ .rightParen ∧ t.kind.unary? = none
  | .expr, ts | .level _, ts | .list, ts => ∃ t us, ts = t :: us ∧ t.kind ≠ .rightParen
  | .args, ts => ∃ t us, ts = t :: us ∧ t.kind = .leftParen
  | .tail _, _ => True

/-- **What a derivation begins with.** One case for each rule; only the first symbol on its right
matters. -/
theorem begins {s : Symbol} {ts : List Token} {v : s.Value} (h : Derives s ts v) : Begins s ts := by
  induction h with
  | plain _ ih => exact ih
  | conditional _ _ _ _ _ ih _ _ =>
    obtain ⟨t, us, rfl, ht⟩ := ih
    exact ⟨t, _, rfl, ht⟩
  | level _ _ _ ih _ =>
    obtain ⟨t, us, rfl, ht⟩ := ih
    exact ⟨t, _, rfl, ht⟩
  | last => trivial
  | next _ _ _ _ _ _ => trivial
  | @unary t op ts e ht _ _ =>
    refine ⟨t, ts, rfl, fun hkind => ?_⟩
    rw [hkind] at ht
    cases ht
  | operand _ ih =>
    obtain ⟨t, us, rfl, ht, -⟩ := ih
    exact ⟨t, us, rfl, ht⟩
  | first _ ih => exact ih
  | field _ _ _ ih =>
    obtain ⟨t, us, rfl, ht⟩ := ih
    exact ⟨t, _, rfl, ht⟩
  | method _ _ _ _ ih _ =>
    obtain ⟨t, us, rfl, ht⟩ := ih
    exact ⟨t, _, rfl, ht⟩
  | @literal t kind ht =>
    refine ⟨t, [], rfl, ?_⟩
    -- no kind that stands for a literal is a parenthesis or an operator
    cases hkind : t.kind <;> rw [hkind] at ht <;> first | exact ⟨by decide, rfl⟩ | cases ht
  | @ident t ht => exact ⟨t, [], rfl, by rw [ht]; decide, by rw [ht]; rfl⟩
  | @call t us as ht _ _ => exact ⟨t, us, rfl, by rw [ht]; decide, by rw [ht]; rfl⟩
  | @paren o c ts e ho _ _ _ => exact ⟨o, _, rfl, by rw [ho]; decide, by rw [ho]; rfl⟩
  | @noArgs o c ho _ => exact ⟨o, _, rfl, ho⟩
  | @someArgs o us as ho _ _ => exact ⟨o, _, rfl, ho⟩
  | lastArg _ _ ih =>
    obtain ⟨t, us, rfl, ht⟩ := ih
    exact ⟨t, _, rfl, ht⟩
  | nextArg _ _ _ ih _ =>
    obtain ⟨t, us, rfl, ht⟩ := ih
    exact ⟨t, _, rfl, ht⟩

end Derives

/-! ### What is derived is whole -/

section Whole

variable {names : String → Prop} {literals : LiteralKind → String → Prop}

/-- The tree of a level is whole if its operands are. -/
theorem isWhole_levelTree (e : Expr) (rest : List (BinaryOp × Expr))
    (he : e.IsWhole names literals) (hrest : ∀ p ∈ rest, p.2.IsWhole names literals) :
    (levelTree e rest).IsWhole names literals := by
  induction e, rest using levelTree.induct with
  | case1 e => rwa [levelTree]
  | case2 e op x rest run ih =>
    rw [levelTree]
    -- the first run and the tree in front of it make one node; the rest is another level tree
    refine ih ((Expr.isWhole_join (by simp [run])).mpr fun y hy => ?_) fun p hp => ?_
    · rcases List.mem_cons.mp hy with rfl | hy
      · exact he
      rcases List.mem_cons.mp hy with rfl | hy
      · exact hrest (op, y) (by simp)
      · obtain ⟨p, hp, rfl⟩ := List.mem_map.mp hy
        exact hrest p (List.mem_cons_of_mem _ (List.takeWhile_subset _ hp))
    · exact hrest p (List.mem_cons_of_mem _ (List.dropWhile_subset _ hp))

variable (names literals)

/-- A token whose text is as names or literals are asked to be. -/
def Token.Fits (t : Token) : Prop :=
  (t.kind = .ident → names t.text) ∧ ∀ kind, t.kind.literalKind? = some kind → literals kind t.text

/-- All the trees that a derivation stands for are whole. -/
def Symbol.ValueIsWhole : (s : Symbol) → s.Value → Prop
  | .tail _, (rest : List (BinaryOp × Expr)) => ∀ p ∈ rest, p.2.IsWhole names literals
  | .args, (as : Arguments) | .list, (as : Arguments) => ∀ e ∈ as.list, e.IsWhole names literals
  | .expr, (e : Expr) | .level _, (e : Expr) | .members, (e : Expr) | .primary, (e : Expr) =>
    e.IsWhole names literals

variable {names literals}

/-- **What is derived is whole.** -/
theorem Derives.isWhole {s : Symbol} {ts : List Token} {v : s.Value} (h : Derives s ts v)
    (hts : ∀ t ∈ ts, t.Fits names literals) : s.ValueIsWhole names literals v := by
  -- the tokens of a production are those of its parts, so what is asked of all is asked of each
  induction h with
  | plain _ ih => exact ih hts
  | conditional _ _ _ _ _ ihc ihy ihn =>
    simp only [List.forall_mem_append, List.forall_mem_cons] at hts
    obtain ⟨hcs, -, hys, -, hns⟩ := hts
    exact ⟨ihc hcs, ihy hys, ihn hns⟩
  | level _ _ _ ihe ihrest =>
    obtain ⟨hts, hus⟩ := List.forall_mem_append.mp hts
    exact isWhole_levelTree _ _ (ihe hts) (ihrest hus)
  | last => exact fun p hp => absurd hp List.not_mem_nil
  | next _ _ _ _ ihe ihrest =>
    simp only [List.forall_mem_append, List.forall_mem_cons] at hts
    obtain ⟨-, hts, hus⟩ := hts
    exact List.forall_mem_cons.mpr ⟨ihe hts, ihrest hus⟩
  | unary _ _ ih => exact ih (List.forall_mem_cons.mp hts).2
  | operand _ ih => exact ih hts
  | first _ ih => exact ih hts
  | field _ _ hname ih =>
    simp only [List.forall_mem_append, List.forall_mem_cons] at hts
    obtain ⟨hts, -, hfits, -⟩ := hts
    exact ⟨ih hts, hfits.1 hname⟩
  | method _ _ hname _ ihe ihas =>
    simp only [List.forall_mem_append, List.forall_mem_cons] at hts
    obtain ⟨hts, -, hfits, hus⟩ := hts
    exact ⟨.inr (ihe hts), hfits.1 hname, Expr.areWhole_iff.mpr (ihas hus)⟩
  | literal ht => exact (List.forall_mem_singleton.mp hts).2 _ ht
  | ident ht => exact (List.forall_mem_singleton.mp hts).1 ht
  | call ht _ ih =>
    obtain ⟨hfits, hus⟩ := List.forall_mem_cons.mp hts
    exact ⟨.inl rfl, hfits.1 ht, Expr.areWhole_iff.mpr (ih hus)⟩
  | paren _ _ _ ih =>
    simp only [List.forall_mem_append, List.forall_mem_cons] at hts
    obtain ⟨-, hts, -⟩ := hts
    exact ih hts
  | noArgs _ _ => exact fun e he => absurd he List.not_mem_nil
  | someArgs _ _ ih => exact ih (List.forall_mem_cons.mp hts).2
  | lastArg _ _ ih =>
    obtain ⟨hts, -⟩ := List.forall_mem_append.mp hts
    exact List.forall_mem_singleton.mpr (ih hts)
  | nextArg _ _ _ ihe ihas =>
    simp only [List.forall_mem_append, List.forall_mem_cons] at hts
    obtain ⟨hts, -, hus⟩ := hts
    exact List.forall_mem_cons.mpr ⟨ihe hts, ihas hus⟩

end Whole

end OperandOrder
