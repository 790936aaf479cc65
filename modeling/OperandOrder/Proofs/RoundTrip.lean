import OperandOrder.Proofs.Parser.Completeness
import OperandOrder.Proofs.Printing

/-!
# Reading undoes printing

The words of a printed tree are derived from the grammar, and the derivation stands for the tree
with its parentheses put in. Where in the grammar depends on how loosely the tree binds: `Form.rank`
numbers the symbols that stand for a tree, tightest first, and `Position.rank` is the loosest that a
position admits. A child is wrapped where its rank is above that of its position
(`rank_le_of_not_wraps`).

Leftmost operands are where this is not the whole story. An operand of the level of its parent is
not wrapped there if its operator is another one, and is not derived on its own either: its operands
and those of the parent lie side by side in one derivation of their level, and it is `levelTree`
that puts them together as they were. So `Regained` hands on how an infix tree is derived, with its
last operator.
-/

namespace OperandOrder

open Fragment

/-! ### Ranks -/

/-- How loosely a tree of a form binds: 1 for what may have members, 2 for unary operators, then the
levels of the binary operators, and 13 for a conditional. -/
def Form.rank : Form → Nat
  | .infixed op => op.level
  | .conditional => 13
  | .unary _ => 2
  | _ => 1

/-- The loosest rank that a position admits. -/
def Position.rank : Position → Nat
  | .receiver => 1
  | .unaryOperand => 2
  | .operand parent true => parent.level
  | .operand parent false => parent.level - 1
  | .condition => 12

/-- There are ten levels, from 3 to 12. -/
theorem level_bounds (op : BinaryOp) : 3 ≤ op.level ∧ op.level ≤ 12 := by
  cases op <;> decide

/-- Every position takes an operand of the tightest rank. -/
theorem one_le_rank (position : Position) : 1 ≤ position.rank := by
  cases position with
  | operand parent leftmost =>
    have hparent := level_bounds parent
    cases leftmost
    · exact Nat.le_sub_of_add_le (by omega)
    · exact Nat.le_trans (by decide) hparent.1
  | _ => decide

/-- **What is not wrapped binds tightly enough.** -/
theorem rank_le_of_not_wraps {position : Position} {form : Form} (h : position.wraps form = false) :
    form.rank ≤ position.rank := by
  cases form with
  | conditional => cases position <;> cases h
  | infixed op =>
    cases position with
    | receiver => cases h
    | unaryOperand => cases h
    | condition => exact (level_bounds op).2
    | operand parent leftmost =>
      -- on the right, an operand of the same level is wrapped as well
      have hparent := level_bounds parent
      obtain ⟨hlooser, hsame⟩ := Bool.or_eq_false_iff.mp h
      have hle : op.level ≤ parent.level := Nat.le_of_not_lt (of_decide_eq_false hlooser)
      cases leftmost with
      | true => exact hle
      | false =>
        have hne : op.level ≠ parent.level := by simpa using hsame
        change op.level ≤ parent.level - 1
        omega
  | unary op =>
    cases position with
    | receiver => cases h
    | unaryOperand => exact Nat.le_refl 2
    | condition => exact Nat.le_add_left 2 10
    | operand parent leftmost =>
      have hparent := level_bounds parent
      cases leftmost with
      | true =>
        change 2 ≤ parent.level
        omega
      | false =>
        change 2 ≤ parent.level - 1
        omega
  | _ => exact one_le_rank position

/-- A leftmost operand of the level of its parent that is not wrapped has another operator. -/
theorem ne_of_not_wraps {parent op : BinaryOp}
    (h : (Position.operand parent true).wraps (.infixed op) = false)
    (hlevel : op.level = parent.level) : op ≠ parent := by
  rintro rfl
  simp [Position.wraps] at h

/-- **A derivation of a rank.** -/
def DerivesAt (rank : Nat) (ts : List Token) (e : Expr) : Prop :=
  if rank < 2 then Derives .members ts e
  else if rank < 13 then Derives (.level rank) ts e
  else Derives .expr ts e

/-- **A derivation of a rank is one of every looser rank.** The ranks are of three kinds: members,
levels, and expressions. -/
theorem DerivesAt.mono {k m : Nat} {ts : List Token} {e : Expr} (h : DerivesAt k ts e)
    (hkm : k ≤ m) : DerivesAt m ts e := by
  unfold DerivesAt at h ⊢
  have htwo : k < 2 → Derives (.level 2) ts e := by
    intro hk
    rw [if_pos hk] at h
    exact .operand h
  have hlevel : k < 13 → Derives (.level (max 2 k)) ts e := by
    intro hk
    by_cases hk' : k < 2
    · rw [max_eq_left (by omega)]
      exact htwo hk'
    · rw [max_eq_right (by omega)]
      rwa [if_neg hk', if_pos hk] at h
  -- `m` is the rank of members, of a level, or of a whole expression
  by_cases hm : m < 2
  · rw [if_pos hm]
    rwa [if_pos (by omega)] at h
  rw [if_neg hm]
  by_cases hm' : m < 13
  · rw [if_pos hm']
    exact (hlevel (by omega)).level_mono (by omega) (by omega)
  rw [if_neg hm']
  by_cases hk : k < 13
  · exact .plain ((hlevel hk).level_mono (by omega) (by omega))
  · rwa [if_neg (by omega), if_neg hk] at h

/-- What is derived at any rank is an expression. -/
theorem DerivesAt.expr {k : Nat} {ts : List Token} {e : Expr} (h : DerivesAt k ts e) :
    Derives .expr ts e := by
  have hmost := h.mono (Nat.le_max_left k 13)
  unfold DerivesAt at hmost
  rwa [if_neg (by omega), if_neg (by omega)] at hmost

/-- What is derived at a rank is derived at a level that is no tighter. -/
theorem DerivesAt.level {k : Nat} {ts : List Token} {e : Expr} (h : DerivesAt k ts e) {m : Nat}
    (hkm : k ≤ m) (hm : 2 ≤ m) (hm' : m ≤ 12) : Derives (.level m) ts e := by
  have hmost := h.mono hkm
  unfold DerivesAt at hmost
  rwa [if_neg (by omega), if_pos (by omega)] at hmost

/-- Members are of the tightest rank. -/
theorem Derives.at_one {ts : List Token} {e : Expr} (h : Derives .members ts e) :
    DerivesAt 1 ts e := by
  rwa [DerivesAt, if_pos (by decide)]

/-! ### Tokens and their words -/

/-- Tokens are divided where their words are. -/
theorem exists_of_map_word_append {ts : List Token} {ws ws' : List Word}
    (h : ts.map Token.word = ws ++ ws') :
    ∃ us vs, ts = us ++ vs ∧ us.map Token.word = ws ∧ vs.map Token.word = ws' :=
  List.map_eq_append_iff.mp h

/-- Tokens have a first one if their words have. -/
theorem exists_of_map_word_cons {ts : List Token} {w : Word} {ws : List Word}
    (h : ts.map Token.word = w :: ws) :
    ∃ t us, ts = t :: us ∧ t.word = w ∧ us.map Token.word = ws :=
  List.map_eq_cons_iff.mp h

/-- A token is known from its word. -/
theorem eq_of_word {t : Token} {text : String} {kind : TokenKind} (h : t.word = .of text)
    (hkind : Lexeme.kindOf? text = some kind) : t.kind = kind ∧ t.text = text := by
  rw [Word.of_eq hkind] at h
  exact ⟨congrArg Word.kind h, congrArg Word.text h⟩

/-! ### Trees regained -/

/-- **A derivation of an infix tree, laid open:** the operator that comes last is `op`. -/
def Opened (op : BinaryOp) (ts : List Token) (e : Expr) : Prop :=
  ∃ us vs first rest, ts = us ++ vs ∧ Derives (.level (op.level - 1)) us first ∧
    Derives (.tail op.level) vs rest ∧ rest.getLast?.map (·.1) = some op ∧ levelTree first rest = e

/-- **A tree that is regained from its words:** the tokens are derived as its form asks for, and the
derivation stands for the tree with its parentheses. -/
structure Regained (e : Expr) (ts : List Token) (e' : Expr) : Prop where
  derives : DerivesAt e.form.rank ts e'
  bare : e'.bare = e.explicit.bare
  opened : ∀ op, e.form = .infixed op → Opened op ts e'

/-- A tree is regained from all tokens with its words. -/
def Regains (e : Expr) : Prop :=
  ∀ ts : List Token, ts.map Token.word = words e.fragments → ∃ e', Regained e ts e'

/-- A derivation is enough, if the tree is not an infix one. -/
theorem regained_of_derives {e e' : Expr} {ts : List Token} (h : DerivesAt e.form.rank ts e')
    (hbare : e'.bare = e.explicit.bare) (hform : ∀ op, e.form ≠ .infixed op) : Regained e ts e' :=
  ⟨h, hbare, fun op hop => absurd hop (hform op)⟩

/-- **A tree in parentheses** is regained as one. -/
theorem derives_parens {e : Expr} (he : Regains e) {ts : List Token}
    (hts : ts.map Token.word = words (.text "(" :: e.fragments ++ [.text ")"])) :
    ∃ e', Derives .primary ts e' ∧ e'.bare = .paren .nowhere e.explicit.bare := by
  rw [List.cons_append, words_text, words_append] at hts
  obtain ⟨o, us, rfl, ho, hus⟩ := exists_of_map_word_cons hts
  obtain ⟨us, vs, rfl, hinner, hvs⟩ := exists_of_map_word_append hus
  obtain ⟨c, vs, rfl, hc, hvs⟩ := exists_of_map_word_cons hvs
  obtain rfl : vs = [] := List.map_eq_nil_iff.mp hvs
  obtain ⟨e', he'⟩ := he us hinner
  have hopen := (eq_of_word ho rfl).1
  have hclose := (eq_of_word hc rfl).1
  refine ⟨_, .paren hopen he'.derives.expr hclose, ?_⟩
  rw [Expr.bare, he'.bare]

/-- **A child at its position,** wrapped if need be. -/
theorem derives_wrap {e : Expr} (he : Regains e) (position : Position) {ts : List Token}
    (hts : ts.map Token.word = words (wrap position e.form e.fragments)) :
    ∃ e', DerivesAt position.rank ts e' ∧ e'.bare = (position.mark e.form e.explicit).bare := by
  unfold wrap at hts
  unfold Position.mark
  by_cases hwraps : position.wraps e.form = true
  · rw [if_pos hwraps] at hts ⊢
    obtain ⟨e', hderives, hbare⟩ := derives_parens he hts
    exact ⟨e', (Derives.first hderives).at_one.mono (one_le_rank position), hbare⟩
  · rw [if_neg hwraps] at hts ⊢
    obtain ⟨e', he'⟩ := he ts hts
    exact ⟨e', he'.derives.mono (rank_le_of_not_wraps (by simpa using hwraps)), he'.bare⟩

/-! ### Infix trees -/

/-- Every operand but the leftmost. -/
theorem derives_tail (op : BinaryOp) (es : List Expr) (hes : ∀ e ∈ es, Regains e) {ts : List Token}
    (hts : ts.map Token.word = words (Expr.operandFragments op false es)) :
    ∃ run : List Expr, Derives (.tail op.level) ts (run.map (op, ·)) ∧
      run.map Expr.bare = (Expr.explicitOperands op false es).map Expr.bare := by
  -- operands on the right are read one level below that of the operator
  obtain ⟨k, hk⟩ : ∃ k, op.level = k + 1 := ⟨op.level - 1, by have := level_bounds op; omega⟩
  induction es generalizing ts with
  | nil =>
    obtain rfl : ts = [] := List.map_eq_nil_iff.mp hts
    exact ⟨[], .last, rfl⟩
  | cons e es ih =>
    rw [Expr.operandFragments, if_neg Bool.false_ne_true, List.append_assoc, words_append] at hts
    change ts.map Token.word = .of op.symbol :: words _ at hts
    obtain ⟨t, us, rfl, ht, hus⟩ := exists_of_map_word_cons hts
    rw [words_append] at hus
    obtain ⟨us, vs, rfl, hoperand, hothers⟩ := exists_of_map_word_append hus
    obtain ⟨x, hx, hbare⟩ := derives_wrap (hes e (by simp)) _ hoperand
    obtain ⟨run, hrun, hbares⟩ := ih (fun y hy => hes y (List.mem_cons_of_mem e hy)) hothers
    have hoperator : Lexeme.kindOf? op.symbol = some (.operator op) := by cases op <;> rfl
    have hlevels := level_bounds op
    have hx' : Derives (.level k) us x :=
      hx.level (by change op.level - 1 ≤ k; omega) (by omega) (by omega)
    refine ⟨x :: run, ?_, ?_⟩
    · rw [hk] at hrun ⊢
      exact .next (eq_of_word ht hoperator).1 hk hx' hrun
    · rw [List.map_cons, hbare, hbares]
      rfl

/-- **The leftmost operand.** It is derived at the next tighter level, or its operands are, and then
they are joined by operators of which the last is not that of the parent. -/
theorem derives_leftmost {e : Expr} (he : Regains e) (op : BinaryOp) {ts : List Token}
    (hts : ts.map Token.word = words (wrap (.operand op true) e.form e.fragments)) :
    ∃ us vs first rest, ts = us ++ vs ∧ Derives (.level (op.level - 1)) us first ∧
      Derives (.tail op.level) vs rest ∧ (∀ p ∈ rest.getLast?, p.1 ≠ op) ∧
        (levelTree first rest).bare = ((Position.operand op true).mark e.form e.explicit).bare := by
  have hlevels := level_bounds op
  have halone : ∀ first, Derives (.level (op.level - 1)) ts first →
      first.bare = ((Position.operand op true).mark e.form e.explicit).bare →
        ∃ us vs first rest, ts = us ++ vs ∧ Derives (.level (op.level - 1)) us first ∧
          Derives (.tail op.level) vs rest ∧ (∀ p ∈ rest.getLast?, p.1 ≠ op) ∧
            (levelTree first rest).bare =
              ((Position.operand op true).mark e.form e.explicit).bare := by
    intro first hfirst hbare
    refine ⟨ts, [], first, [], (List.append_nil ts).symm, hfirst, .last, nofun, ?_⟩
    rwa [levelTree]
  by_cases hwraps : (Position.operand op true).wraps e.form = true
  · -- in parentheses the operand binds as tightly as any
    unfold wrap at hts
    rw [if_pos hwraps] at hts
    obtain ⟨first, hderives, hbare⟩ := derives_parens he hts
    refine halone first ((Derives.first hderives).at_one.level (by omega) (by omega) (by omega)) ?_
    rw [hbare, Position.mark, if_pos hwraps]
    rfl
  · unfold wrap at hts
    rw [if_neg hwraps] at hts
    obtain ⟨e', he'⟩ := he ts hts
    have hmark : (Position.operand op true).mark e.form e.explicit = e.explicit := by
      rw [Position.mark, if_neg hwraps]
    have hwraps : (Position.operand op true).wraps e.form = false := by simpa using hwraps
    by_cases htight : e.form.rank ≤ op.level - 1
    · exact halone e' (he'.derives.level htight (by omega) (by omega))
        (by rw [hmark]; exact he'.bare)
    · have hrank : e.form.rank ≤ op.level := rank_le_of_not_wraps hwraps
      -- only infix trees are of a rank between 3 and 12
      obtain ⟨op', hform⟩ : ∃ op', e.form = .infixed op' := by
        cases hform : e.form with
        | infixed op' => exact ⟨op', rfl⟩
        | _ =>
          rw [hform] at htight hrank
          simp only [Form.rank] at htight hrank
          omega
      rw [hform] at hrank htight hwraps
      have hsame : op'.level = op.level := by
        change op'.level ≤ op.level at hrank
        change ¬op'.level ≤ op.level - 1 at htight
        omega
      -- so it is of the level of its parent, and its own derivation is taken apart
      obtain ⟨us, vs, first, rest, rfl, hfirst, hrest, hlast, htree⟩ := he'.opened op' hform
      rw [hsame] at hfirst hrest
      refine ⟨us, vs, first, rest, rfl, hfirst, hrest, fun p hp => ?_, ?_⟩
      · rw [Option.mem_def.mp hp] at hlast
        have hop : p.1 = op' := Option.some.inj hlast
        rw [hop]
        exact ne_of_not_wraps hwraps hsame
      · rw [htree, hmark]
        exact he'.bare

/-- A derivation that is laid open is one of the level of its operator. -/
theorem Opened.derivesAt {op : BinaryOp} {ts : List Token} {e : Expr} (h : Opened op ts e) :
    DerivesAt op.level ts e := by
  obtain ⟨us, vs, first, rest, rfl, hfirst, hrest, -, rfl⟩ := h
  have hlevels := level_bounds op
  obtain ⟨k, hk⟩ : ∃ k, op.level = k + 1 := ⟨op.level - 1, by omega⟩
  rw [hk] at hfirst hrest ⊢
  unfold DerivesAt
  rw [if_neg (by omega), if_pos (by omega)]
  exact .level (by omega) hfirst hrest

/-- **Two operands or more** are regained as one node. -/
theorem opened_operands (op : BinaryOp) (e x : Expr) (es : List Expr)
    (hes : ∀ y ∈ e :: x :: es, Regains y) {ts : List Token}
    (hts : ts.map Token.word = words (Expr.operandFragments op true (e :: x :: es))) :
    ∃ e', Opened op ts e' ∧
      e'.bare = .join .nowhere op
        ((Expr.explicitOperands op true (e :: x :: es)).map Expr.bare) := by
  rw [Expr.operandFragments, if_pos rfl, List.nil_append, words_append] at hts
  obtain ⟨us, vs, rfl, hleft, hothers⟩ := exists_of_map_word_append hts
  obtain ⟨us, vs', first, rest, rfl, hfirst, hrest, hlast, hbare⟩ :=
    derives_leftmost (hes e (by simp)) op hleft
  obtain ⟨run, hrun, hbares⟩ :=
    derives_tail op (x :: es) (fun y hy => hes y (List.mem_cons_of_mem e hy)) hothers
  obtain ⟨y, run, rfl⟩ : ∃ y ys, run = y :: ys := by
    cases run with
    | nil => cases hbares
    | cons y ys => exact ⟨y, ys, rfl⟩
  -- the operands of `op` make a run of their own, behind whatever the leftmost one is made of
  obtain ⟨s, htree⟩ := levelTree_append y run hlast
  refine ⟨_, ⟨us, vs' ++ vs, first, rest ++ (y :: run).map (op, ·), List.append_assoc .., hfirst,
    hrest.tail_append hrun, ?_, rfl⟩, ?_⟩
  · rw [List.getLast?_append, List.getLast?_map]
    cases hlast : (y :: run).getLast? with
    | none => exact absurd (List.getLast?_eq_none_iff.mp hlast) (List.cons_ne_nil y run)
    | some z => rfl
  · rw [htree, Expr.bare_join, List.map_cons, hbare, hbares]
    rfl

/-! ### Calls -/

/-- The arguments of a call, the opening parenthesis taken off. -/
theorem derives_list (e : Expr) (es : List Expr) (hes : ∀ x ∈ e :: es, Regains x) {ts : List Token}
    (hts : ts.map Token.word = words (Expr.argumentFragments true (e :: es) ++ [.text ")"])) :
    ∃ as : Arguments, Derives .list ts as ∧
      as.list.map Expr.bare = (Expr.explicitAll (e :: es)).map Expr.bare := by
  -- the list is never empty, so the first argument is kept apart
  induction es generalizing e ts with
  | nil =>
    rw [Expr.argumentFragments, Expr.argumentFragments, if_pos rfl, List.nil_append,
      List.append_nil, words_append] at hts
    obtain ⟨us, vs, rfl, hus, hvs⟩ := exists_of_map_word_append hts
    obtain ⟨c, vs, rfl, hc, hvs⟩ := exists_of_map_word_cons hvs
    obtain rfl : vs = [] := List.map_eq_nil_iff.mp hvs
    obtain ⟨e', he'⟩ := hes e (by simp) us hus
    exact ⟨_, .lastArg he'.derives.expr (eq_of_word hc rfl).1, congrArg (fun x => [x]) he'.bare⟩
  | cons x es ih =>
    have hwords : words (Expr.argumentFragments true (e :: x :: es) ++ [.text ")"]) =
        words e.fragments ++
          (.of "," :: words (Expr.argumentFragments true (x :: es) ++ [.text ")"])) := by
      simp [Expr.argumentFragments]
    rw [hwords] at hts
    obtain ⟨us, vs, rfl, hus, hvs⟩ := exists_of_map_word_append hts
    obtain ⟨comma, vs, rfl, hcomma, hvs⟩ := exists_of_map_word_cons hvs
    obtain ⟨e', he'⟩ := hes e (by simp) us hus
    obtain ⟨as, has, hbares⟩ := ih x (fun y hy => hes y (List.mem_cons_of_mem e hy)) hvs
    refine ⟨_, .nextArg he'.derives.expr (eq_of_word hcomma rfl).1 has, ?_⟩
    rw [List.map_cons, he'.bare, hbares]
    rfl

/-- A name is regained with the arguments behind it. -/
theorem derives_call {name : String} (hname : IsName name) (args : List Expr)
    (hargs : ∀ x ∈ args, Regains x) {ts : List Token}
    (hts : ts.map Token.word = words ([.text name] ++ ([.text "("] ++
      (Expr.argumentFragments true args ++ [.text ")"])))) :
    ∃ t us as, ts = t :: us ∧ t.kind = .ident ∧ t.text = name ∧ Derives .args us as ∧
      as.list.map Expr.bare = (Expr.explicitAll args).map Expr.bare := by
  change ts.map Token.word = .of name :: .of "(" :: words _ at hts
  obtain ⟨t, us, rfl, ht, hus⟩ := exists_of_map_word_cons hts
  obtain ⟨o, us, rfl, ho, hus⟩ := exists_of_map_word_cons hus
  obtain ⟨hkind, htext⟩ := eq_of_word ht hname
  have hopen := (eq_of_word ho rfl).1
  -- an empty list is closed at once
  cases args with
  | nil =>
    obtain ⟨c, vs, rfl, hc, hvs⟩ := exists_of_map_word_cons hus
    obtain rfl : vs = [] := List.map_eq_nil_iff.mp hvs
    exact ⟨t, _, _, rfl, hkind, htext, .noArgs hopen (eq_of_word hc rfl).1, rfl⟩
  | cons e es =>
    obtain ⟨as, has, hbares⟩ := derives_list e es hargs hus
    exact ⟨t, _, as, rfl, hkind, htext, .someArgs hopen has, hbares⟩

/-! ### All trees -/

/-- A literal is regained from its word. -/
theorem regains_literal {s : Span} {literal : LiteralKind} {text : String}
    (h : IsLiteral literal text) : Regains (.literal s literal text) := by
  intro ts hts
  obtain ⟨t, us, rfl, ht, hus⟩ := exists_of_map_word_cons hts
  obtain rfl : us = [] := List.map_eq_nil_iff.mp hus
  obtain ⟨kind, hkind, hliteral⟩ := Option.bind_eq_some_iff.mp h
  obtain ⟨hk, rfl⟩ := eq_of_word ht hkind
  have hderives : Derives .primary [t] (.literal t.span literal t.text) :=
    .literal (by rw [hk, hliteral])
  exact ⟨_, regained_of_derives (Derives.first hderives).at_one rfl (by rintro _ ⟨⟩)⟩

/-- A name is regained from its word. -/
theorem regains_ident {s : Span} {name : String} (h : IsName name) : Regains (.ident s name) := by
  intro ts hts
  obtain ⟨t, us, rfl, ht, hus⟩ := exists_of_map_word_cons hts
  obtain rfl : us = [] := List.map_eq_nil_iff.mp hus
  obtain ⟨hk, rfl⟩ := eq_of_word ht h
  exact ⟨_, regained_of_derives (Derives.first (.ident hk)).at_one rfl (by rintro _ ⟨⟩)⟩

/-- **A call is regained** from its receiver, if it has one, its name and its arguments. -/
theorem regains_call {s : Span} {receiver : Expr} {name : String} {args : List Expr}
    (hname : IsName name) (hreceiver : receiver = .absent ∨ Regains receiver)
    (hargs : ∀ x ∈ args, Regains x) : Regains (.call s receiver name args) := by
  intro ts hts
  rw [Expr.fragments_call] at hts
  by_cases hplain : receiver = .absent
  · subst hplain
    rw [if_pos rfl, List.nil_append] at hts
    obtain ⟨t, us, as, rfl, hk, rfl, has, hbares⟩ := derives_call hname args hargs hts
    refine ⟨_, regained_of_derives (Derives.first (.call hk has)).at_one ?_ (by rintro _ ⟨⟩)⟩
    simp only [Expr.explicit, Expr.bare, Expr.bareAll_eq_map, hbares]
    rfl
  · rw [if_neg hplain, List.append_assoc, words_append] at hts
    obtain ⟨us, vs, rfl, hus, hvs⟩ := exists_of_map_word_append hts
    -- the receiver, the point, and then the call as it would stand alone
    obtain ⟨dot, vs, rfl, hdot, hvs⟩ := exists_of_map_word_cons hvs
    obtain ⟨t, vs, as, rfl, hk, rfl, has, hbares⟩ := derives_call hname args hargs hvs
    obtain ⟨r, hr, hbare⟩ := derives_wrap (hreceiver.resolve_left hplain) .receiver hus
    refine ⟨_, regained_of_derives (Derives.method hr (eq_of_word hdot rfl).1 hk
      has).at_one ?_ (by rintro _ ⟨⟩)⟩
    simp only [Expr.explicit, Expr.bare, Expr.bareAll_eq_map, hbares, hbare]

/-- The access to a field is regained from its receiver and its name. -/
theorem regains_field {s : Span} {receiver : Expr} {name : String} (hname : IsName name)
    (hreceiver : Regains receiver) : Regains (.field s receiver name) := by
  intro ts hts
  rw [Expr.fragments, words_append] at hts
  obtain ⟨us, vs, rfl, hus, hvs⟩ := exists_of_map_word_append hts
  obtain ⟨dot, vs, rfl, hdot, hvs⟩ := exists_of_map_word_cons hvs
  obtain ⟨t, vs, rfl, ht, hvs⟩ := exists_of_map_word_cons hvs
  obtain rfl : vs = [] := List.map_eq_nil_iff.mp hvs
  obtain ⟨r, hr, hbare⟩ := derives_wrap hreceiver .receiver hus
  obtain ⟨hk, rfl⟩ := eq_of_word ht hname
  refine ⟨_, regained_of_derives (Derives.field hr (eq_of_word hdot rfl).1
    hk).at_one ?_ (by rintro _ ⟨⟩)⟩
  simp only [Expr.explicit, Expr.bare, hbare]

/-- A sign is regained in front of its operand. -/
theorem regains_unary {s : Span} {op : UnaryOp} {operand : Expr} (h : Regains operand) :
    Regains (.unary s op operand) := by
  intro ts hts
  rw [Expr.fragments, words_append, words_text, Expr.words_signGap, List.cons_append,
    List.nil_append] at hts
  obtain ⟨t, us, rfl, ht, hus⟩ := exists_of_map_word_cons hts
  obtain ⟨x, hx, hbare⟩ := derives_wrap h .unaryOperand hus
  -- two of the signs are binary operators as well, so it takes `unary?` to say what they are here
  have hsign : ∃ kind, Lexeme.kindOf? op.symbol = some kind ∧ kind.unary? = some op := by
    cases op <;> exact ⟨_, rfl, rfl⟩
  obtain ⟨kind, hkind, hunary⟩ := hsign
  have hk : t.kind.unary? = some op := by rw [(eq_of_word ht hkind).1, hunary]
  have hderives : DerivesAt 2 (t :: us) (.unary (t.span.merge x.span) op x) := .unary hk hx
  refine ⟨_, regained_of_derives hderives ?_ (by rintro _ ⟨⟩)⟩
  simp only [Expr.explicit, Expr.bare, hbare]

theorem regains_paren {s : Span} {inner : Expr} (h : Regains inner) : Regains (.paren s inner) := by
  intro ts hts
  obtain ⟨e', hderives, hbare⟩ := derives_parens h hts
  exact ⟨e', regained_of_derives (Derives.first hderives).at_one hbare (by rintro _ ⟨⟩)⟩

/-- **A node of two operands is regained.** If the left one has the same operator, it is in
parentheses, so that the two are not read as one chain. -/
theorem regains_binary {s : Span} {op : BinaryOp} {left right : Expr} (hleft : Regains left)
    (hright : Regains right) : Regains (.binary s op left right) := by
  intro ts hts
  have hfragments : (Expr.binary s op left right).fragments =
      Expr.operandFragments op true [left, right] := by
    simp [Expr.fragments, Expr.operandFragments]
  rw [hfragments] at hts
  have hboth : ∀ x ∈ [left, right], Regains x := Expr.forall_mem_pair hleft hright
  obtain ⟨e', hopened, hbare⟩ := opened_operands op left right [] hboth hts
  refine ⟨e', hopened.derivesAt, hbare, fun op' hop => ?_⟩
  obtain rfl : op = op' := Form.infixed.inj hop
  exact hopened

/-- **A chain is regained.** Its operands are laid open one behind another, with its
operator last. -/
theorem regains_chain {s : Span} {op : BinaryOp} {operands : List Expr}
    (hlength : 3 ≤ operands.length) (h : ∀ x ∈ operands, Regains x) :
    Regains (.chain s op operands) := by
  intro ts hts
  match operands, hlength with
  | e :: x :: y :: es, _ =>
    obtain ⟨e', hopened, hbare⟩ := opened_operands op e x (y :: es) h hts
    refine ⟨e', hopened.derivesAt, hbare.trans ?_, fun op' hop => ?_⟩
    · rw [Expr.explicit, Expr.bare, Expr.bareAll_eq_map]
      rfl
    · obtain rfl : op = op' := Form.infixed.inj hop
      exact hopened

/-- **A conditional is regained** from its three parts; only the condition may be in parentheses. -/
theorem regains_conditional {s : Span} {cond yes no : Expr} (hcond : Regains cond)
    (hyes : Regains yes) (hno : Regains no) : Regains (.conditional s cond yes no) := by
  intro ts hts
  have hwords : words (Expr.conditional s cond yes no).fragments =
      words (wrap .condition cond.form cond.fragments) ++
        (.of "?" :: (words yes.fragments ++ (.of ":" :: words no.fragments))) := by
    simp [Expr.fragments]
  rw [hwords] at hts
  -- the tokens split where the question mark and the colon are
  obtain ⟨cs, us, rfl, hcs, hus⟩ := exists_of_map_word_append hts
  obtain ⟨q, us, rfl, hq, hus⟩ := exists_of_map_word_cons hus
  obtain ⟨ys, us, rfl, hys, hus⟩ := exists_of_map_word_append hus
  obtain ⟨l, ns, rfl, hl, hns⟩ := exists_of_map_word_cons hus
  obtain ⟨c, hc, hbarec⟩ := derives_wrap hcond .condition hcs
  obtain ⟨y, hy⟩ := hyes ys hys
  obtain ⟨n, hn⟩ := hno ns hns
  have hderives : DerivesAt 13 _ _ := Derives.conditional (hc.level (Nat.le_refl 12) (by decide)
    (by decide)) (eq_of_word hq rfl).1 hy.derives.expr (eq_of_word hl rfl).1 hn.derives.expr
  refine ⟨_, regained_of_derives hderives ?_ (by rintro _ ⟨⟩)⟩
  simp only [Expr.explicit, Expr.bare, hbarec, hy.bare, hn.bare]

/-- **Every printable tree is regained from its words.** -/
theorem regains (e : Expr) (he : e.Printable) : Regains e := by
  induction e using Expr.induct with
  | absent => exact he.elim
  | error s => exact he.elim
  | literal s literal text => exact regains_literal he
  | ident s name => exact regains_ident he
  | call s receiver name args hreceiver hargs =>
    obtain ⟨hwhole, hname, hwholes⟩ := he
    exact regains_call hname (hwhole.imp_right hreceiver) fun x hx =>
      hargs x hx (Expr.areWhole_iff.mp hwholes x hx)
  | field s receiver name hreceiver => exact regains_field he.2 (hreceiver he.1)
  | unary s op operand hoperand => exact regains_unary (hoperand he)
  | paren s inner hinner => exact regains_paren (hinner he)
  | binary s op left right hleft hright => exact regains_binary (hleft he.1) (hright he.2)
  | chain s op operands hoperands =>
    exact regains_chain he.1 fun x hx => hoperands x hx (Expr.areWhole_iff.mp he.2 x hx)
  | conditional s cond yes no hcond hyes hno =>
    exact regains_conditional (hcond he.1) (hyes he.2.1) (hno he.2.2)

/-! ### Texts -/

/-- **A tree that comes back** when its text is read: there are no errors, the tree that is read is
the one that was printed, with its parentheses put in and but for the places of its nodes, and it
has the same text. -/
structure Expr.RoundTrips (e : Expr) : Prop where
  errors : (parse e.print).errors = []
  tree : (parse e.print).expr.bare = e.explicit.bare
  stable : (parse e.print).expr.print = e.print

/-- Printable trees come back, if their text is not too long. -/
theorem roundTrips_of_printable {e : Expr} (he : e.Printable)
    (hwidth : Text.width e.print.toList ≤ Span.limit) : e.RoundTrips := by
  have hspells : Spells e.print.toList (words e.fragments) := by
    rw [e.toList_print]
    exact e.spells_fragments he
  -- the tokens have the words of the tree, and so they are derived, and so they are read
  obtain ⟨hlex, hwords⟩ := lex_of_spells hspells hwidth
  obtain ⟨e', he'⟩ := regains e he _ hwords
  obtain ⟨herrors, rfl⟩ := parse_of_derives hlex he'.derives.expr
  refine ⟨herrors, he'.bare, ?_⟩
  calc (parse e.print).expr.print = e.explicit.print := Expr.print_congr he'.bare
    _ = e.print := congrArg Fragment.layout (Expr.fragments_explicit e)

/-- What is read without errors is printable. -/
theorem printable_parse {source : String} (h : (parse source).errors = []) :
    (parse source).expr.Printable := by
  obtain ⟨-, he⟩ := derives_of_parse h
  refine he.isWhole fun t ht => ⟨fun hkind => ?_, fun literal hliteral => ?_⟩
  · have hname := kindOf?_of_mem_lex ht (by rw [hkind]; rfl)
    rwa [hkind] at hname
  · have htext := kindOf?_of_mem_lex ht (by simp [TokenKind.hasText, hliteral])
    rw [IsLiteral, htext]
    exact hliteral

/-- **Reading undoes printing.** Every printable tree comes back when its text is read, if that is
not longer than a source may be; and what becomes of a source that is read without errors, when it
is reordered within any range, is printable. -/
theorem parse_print :
    (∀ e : Expr, e.Printable → Text.width e.print.toList ≤ Span.limit → e.RoundTrips) ∧
    ∀ (source : String) (policy : Policy) (range : Span), (parse source).errors = [] →
      ((parse source).expr.reorderWithin policy range).expr.Printable ∧
        (Text.width ((parse source).expr.reorderWithin policy range).expr.print.toList ≤
          Span.limit → ((parse source).expr.reorderWithin policy range).expr.RoundTrips) := by
  refine ⟨fun e he hwidth => roundTrips_of_printable he hwidth, fun source policy range h => ?_⟩
  have hprintable := Expr.isWhole_reorderWithin policy range _ (printable_parse h)
  exact ⟨hprintable, fun hwidth => roundTrips_of_printable hprintable hwidth⟩

/-- `(a + b) * c`, with no parenthesis in the tree. -/
def product : Expr :=
  .binary .nowhere .mul (.binary .nowhere .add (.ident .nowhere "a") (.ident .nowhere "b"))
    (.ident .nowhere "c")

theorem parse_print_product : product.Printable ∧ Text.width product.print.toList ≤ Span.limit ∧
    product.print = "(a + b) * c" ∧ product.RoundTrips :=
  ⟨⟨⟨rfl, rfl⟩, rfl⟩, by decide, by decide,
    parse_print.1 product ⟨⟨rfl, rfl⟩, rfl⟩ (by decide)⟩

end OperandOrder
