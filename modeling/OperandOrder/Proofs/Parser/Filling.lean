import OperandOrder.Proofs.Parser.Nesting

/-!
# What is read has no holes

Whatever holds of the leaves that are made of tokens, and of a node as soon as it holds of its
parts, holds of every tree that is read from a text, with errors and without: `closed_parse`. The
nodes that reading makes are listed once, in `Parser.Closed`, and the reading functions are followed
once.

So a tree that was read is *filled*: nothing is absent in it but the receiver of a plain call, and
every chain has three operands or more (`filled_parse`). An `error` stands in for an operand that
was looked for and not found. And names and literals are taken from tokens, with their spans and
their texts (`every_ofToken_parse`).

What reading hands over between two procedures is kept in the same way. The run of operands that is
being gathered has two operands or more as soon as it has an operator (`Run.Gathered`), so it is
closed by a node of two parts or more.
-/

namespace OperandOrder

namespace Expr

/-- **A filled tree:** a tree of the nodes that reading makes. -/
inductive Filled : Expr → Prop
  | error (s : Span) : Filled (.error s)
  | literal (s : Span) (kind : LiteralKind) (text : String) : Filled (.literal s kind text)
  | ident (s : Span) (name : String) : Filled (.ident s name)
  | plainCall (s : Span) (name : String) {args : List Expr} (hargs : ∀ e ∈ args, Filled e) :
      Filled (.call s .absent name args)
  | method (s : Span) (name : String) {receiver : Expr} {args : List Expr}
    (hreceiver : Filled receiver)
      (hargs : ∀ e ∈ args, Filled e) : Filled (.call s receiver name args)
  | field (s : Span) (name : String) {receiver : Expr} (hreceiver : Filled receiver) :
      Filled (.field s receiver name)
  | unary (s : Span) (op : UnaryOp) {operand : Expr} (hoperand : Filled operand) :
      Filled (.unary s op operand)
  | paren (s : Span) {inner : Expr} (hinner : Filled inner) : Filled (.paren s inner)
  | binary (s : Span) (op : BinaryOp) {left right : Expr} (hleft : Filled left)
    (hright : Filled right) : Filled (.binary s op left right)
  | chain (s : Span) (op : BinaryOp) {operands : List Expr} (hlength : 3 ≤ operands.length)
      (hoperands : ∀ e ∈ operands, Filled e) : Filled (.chain s op operands)
  | conditional (s : Span) {cond yes no : Expr} (hcond : Filled cond) (hyes : Filled yes)
      (hno : Filled no) : Filled (.conditional s cond yes no)

namespace Filled

variable {e x : Expr}

/-- Nothing is missing at the root. -/
theorem ne_absent (h : e.Filled) : e ≠ .absent := by
  rintro rfl
  cases h

/-- A child of a filled tree is filled; the receiver that is not there is not a child. -/
theorem child (h : e.Filled) (hx : x ∈ e.children) : x.Filled := by
  cases h with
  | error s => exact absurd hx List.not_mem_nil
  | literal s kind text => exact absurd hx List.not_mem_nil
  | ident s name => exact absurd hx List.not_mem_nil
  | plainCall s name hargs =>
    -- a receiver that is not there is no child
    rcases mem_children_call.mp hx with ⟨-, habsent⟩ | hx
    · exact absurd rfl habsent
    · exact hargs x hx
  | method s name hreceiver hargs =>
    rcases mem_children_call.mp hx with ⟨rfl, -⟩ | hx
    · exact hreceiver
    · exact hargs x hx
  | field s name hreceiver => exact List.mem_singleton.mp hx ▸ hreceiver
  | unary s op hoperand => exact List.mem_singleton.mp hx ▸ hoperand
  | paren s hinner => exact List.mem_singleton.mp hx ▸ hinner
  | binary s op hleft hright => exact forall_mem_pair hleft hright x hx
  | chain s op hlength hoperands => exact hoperands x hx
  | conditional s hcond hyes hno =>
    exact List.forall_mem_cons.mpr ⟨hcond, forall_mem_pair hyes hno⟩ x hx

/-- What is filled is filled everywhere. -/
theorem node (h : e.Filled) (hx : e.HasNode x) : x.Filled := by
  induction hx with
  | self e => exact h
  | inner hchild _ ih => exact ih (h.child hchild)

/-- Two operands or more make a binary node or a chain of three. -/
theorem join (s : Span) (op : BinaryOp) {es : List Expr} (hlength : 2 ≤ es.length)
    (hes : ∀ e ∈ es, e.Filled) : (Expr.join s op es).Filled := by
  match es, hlength with
  | [left, right], _ => exact .binary s op (hes left (by simp)) (hes right (by simp))
  | x :: y :: z :: es, _ => exact .chain s op (by simp) hes

end Filled

end Expr

/-! ### Operands and runs -/

namespace Parser

/-- **Closed under reading:** what holds of all nodes that reading makes of parts for which it
holds. Names and literals are made of tokens, of which `q` is known. -/
structure Closed (q : Token → Prop) (P : Expr → Prop) : Prop where
  error : ∀ s, P (.error s)
  literal : ∀ t kind, q t → t.kind.literalKind? = some kind → P (.literal t.span kind t.text)
  ident : ∀ t, q t → t.kind = .ident → P (.ident t.span t.text)
  plainCall : ∀ s name args, (∀ e ∈ args, P e) → P (.call s .absent name args)
  method : ∀ s name receiver args, P receiver → (∀ e ∈ args, P e) → P (.call s receiver name args)
  field : ∀ s name receiver, P receiver → P (.field s receiver name)
  unary : ∀ s op operand, P operand → P (.unary s op operand)
  paren : ∀ s inner, P inner → P (.paren s inner)
  join : ∀ s op es, 2 ≤ es.length → (∀ e ∈ es, P e) → P (.join s op es)
  conditional : ∀ s cond yes no, P cond → P yes → P no → P (.conditional s cond yes no)

end Parser

section Gathering

variable {q : Token → Prop} {P : Expr → Prop}

/-- A run of which `P` holds for all operands; there are two or more if there is an operator. -/
inductive Run.Gathered (P : Expr → Prop) : Run → Prop
  | single {e : Expr} (he : P e) : Gathered P (.single e)
  | joined (op : BinaryOp) {first : Expr} {others : List Expr} (hothers : others ≠ [])
      (hes : ∀ e ∈ first :: others, P e) : Gathered P (.joined op first others)

/-- A run is closed by a node over what it has gathered. -/
theorem Run.Gathered.close (hP : Parser.Closed q P) {run : Run} (h : run.Gathered P) :
    P run.close := by
  cases h with
  | single he => exact he
  | joined op hothers hes =>
    have hlength := List.length_pos_of_ne_nil hothers
    exact hP.join _ op _ (by rw [List.length_cons]; omega) hes

/-- A run gathers one more operand; a run of another operator is closed first. -/
theorem Run.Gathered.extend (hP : Parser.Closed q P) {run : Run} (h : run.Gathered P)
    (op : BinaryOp) {e : Expr} (he : P e) : (run.extend op e).Gathered P := by
  cases h with
  | single hfirst => exact .joined op (by simp) (Expr.forall_mem_pair hfirst he)
  | joined op' hothers hes =>
    rw [Run.extend]
    split
    next =>
      refine .joined op (by simp) fun x hx => ?_
      rw [← List.cons_append, List.mem_append, List.mem_singleton] at hx
      rcases hx with hx | rfl
      · exact hes x hx
      · exact he
    next =>
      -- the run that is closed is the first operand of the next one
      have hclosed := (Run.Gathered.joined op' hothers hes).close hP
      exact .joined op (by simp) (Expr.forall_mem_pair hclosed he)

/-- Collapsing a level makes operands for which `P` holds of such operands. -/
theorem Flat.closed_collapseFrom (hP : Parser.Closed q P) (level : Nat) {run : Run}
    {rest : List (BinaryOp × Expr)} (hrun : run.Gathered P) (hrest : ∀ p ∈ rest, P p.2) :
    ∀ e ∈ (collapseFrom level run rest).operands, P e := by
  induction rest generalizing run with
  | nil => exact List.forall_mem_singleton.mpr (hrun.close hP)
  | cons p rest ih =>
    obtain ⟨op, e⟩ := p
    obtain ⟨he, hrest⟩ := List.forall_mem_cons.mp hrest
    rw [collapseFrom]
    split
    next => exact ih (hrun.extend hP op he) hrest
    next => exact List.forall_mem_cons.mpr ⟨hrun.close hP, ih (.single he) hrest⟩

/-- **Grouping makes nodes of what has been read,** one for each run. -/
theorem Flat.closed_group (hP : Parser.Closed q P) {f : Flat} (h : ∀ e ∈ f.operands, P e) :
    P f.group := by
  have hlevels : ∀ levels : List Nat, ∀ e ∈ (levels.foldl collapse f).operands, P e := by
    intro levels
    induction levels generalizing f with
    | nil => exact h
    | cons level levels ih =>
      obtain ⟨hhead, htail⟩ := List.forall_mem_cons.mp h
      exact ih (closed_collapseFrom hP level (.single hhead) (List.forall_mem_map.mp htail))
  exact hlevels BinaryOp.levels _ List.mem_cons_self

end Gathering

/-! ### The procedures -/

namespace Parser

variable {q : Token → Prop} {P : Expr → Prop}

namespace Closed

/-- What stands for a missing operand is an error. -/
theorem missing (hP : Closed q P) (total : Nat) (ts : List Token) : P (missing total ts) :=
  hP.error _

/-- A conditional without a colon has an error for a branch. -/
theorem withoutColon (hP : Closed q P) (total : Nat) {cond yes : Expr} (hcond : P cond)
    (hyes : P yes) (ts : List Token) : P (withoutColon total cond yes ts).value :=
  hP.conditional _ _ _ _ hcond hyes (hP.missing total ts)

/-- A parenthesis is made of its inside, closed or not. -/
theorem closeParen (hP : Closed q P) (total : Nat) (start : Span) {inner : Expr} (hinner : P inner)
    (ts : List Token) : P (closeParen total start inner ts).value := by
  cases ts with
  | nil => exact hP.paren _ _ hinner
  | cons t rest =>
    rw [Parser.closeParen]
    split <;> exact hP.paren _ _ hinner

end Closed

theorem forall_mem_drop {ts : List Token} (hts : ∀ t ∈ ts, q t) (n : Nat) : ∀ t ∈ ts.drop n, q t :=
  fun t ht => hts t (List.mem_of_mem_drop ht)

mutual

/-- **What is read from tokens is closed under reading.** The procedures follow, each by the parts
that it reads and the one node that it makes of them. -/
theorem closed_expression (hP : Closed q P) (total : Nat) {ts : List Token} (hts : ∀ t ∈ ts, q t) :
    P (expression total ts).value := by
  rw [expression]
  exact closed_conditional hP total (Flat.closed_group hP (closed_operands hP total hts))
    (forall_mem_drop hts _)
termination_by 8 * ts.length + 4

/-- The condition, and what the branches make of it. -/
theorem closed_conditional (hP : Closed q P) (total : Nat) {cond : Expr} (hcond : P cond) :
    {ts : List Token} → (∀ t ∈ ts, q t) → P (conditional total cond ts).value
  | [], _ => by
    rw [conditional]
    exact hcond
  | t :: rest, hts => by
    have hrest := (List.forall_mem_cons.mp hts).2
    rw [conditional]
    split
    next =>
      exact closed_alternative hP total hcond (closed_expression hP total hrest)
        (forall_mem_drop hrest _)
    next => exact hcond
termination_by ts => 8 * ts.length

/-- The condition and the first branch, and what the second makes of them. -/
theorem closed_alternative (hP : Closed q P) (total : Nat) {cond yes : Expr} (hcond : P cond)
    (hyes : P yes) : {ts : List Token} → (∀ t ∈ ts, q t) → P (alternative total cond yes ts).value
  | [], _ => by
    rw [alternative]
    exact hP.withoutColon total hcond hyes []
  | t :: rest, hts => by
    have hrest := (List.forall_mem_cons.mp hts).2
    rw [alternative]
    split
    next => exact hP.conditional _ _ _ _ hcond hyes (closed_expression hP total hrest)
    next => exact hP.withoutColon total hcond hyes (t :: rest)
termination_by ts => 8 * ts.length

theorem closed_operands (hP : Closed q P) (total : Nat) {ts : List Token} (hts : ∀ t ∈ ts, q t) :
    ∀ e ∈ (operands total ts).value.operands, P e := by
  rw [operands]
  exact closed_operandsAfter hP total (closed_unary hP total hts) (forall_mem_drop hts _)
termination_by 8 * ts.length + 3

/-- Each operand has been read as one. -/
theorem closed_operandsAfter (hP : Closed q P) (total : Nat) {first : Expr} (hfirst : P first) :
    {ts : List Token} → (∀ t ∈ ts, q t) → ∀ e ∈ (operandsAfter total first ts).value.operands, P e
  | [], _ => by
    rw [operandsAfter]
    exact List.forall_mem_singleton.mpr hfirst
  | t :: rest, hts => by
    have hrest := (List.forall_mem_cons.mp hts).2
    rw [operandsAfter]
    split
    next => exact List.forall_mem_singleton.mpr hfirst
    next op _ => exact List.forall_mem_cons.mpr ⟨hfirst, closed_operands hP total hrest⟩
termination_by ts => 8 * ts.length

/-- A sign makes a node of its operand. -/
theorem closed_unary (hP : Closed q P) (total : Nat) :
    {ts : List Token} → (∀ t ∈ ts, q t) → P (unary total ts).value
  | [], hts => by
    rw [unary]
    exact closed_memberChain hP total hts
  | t :: rest, hts => by
    rw [unary]
    split
    next => exact closed_memberChain hP total hts
    next op _ => exact hP.unary _ op _ (closed_unary hP total (List.forall_mem_cons.mp hts).2)
termination_by ts => 8 * ts.length + 2

theorem closed_memberChain (hP : Closed q P) (total : Nat) {ts : List Token} (hts : ∀ t ∈ ts, q t) :
    P (memberChain total ts).value := by
  rw [memberChain]
  exact closed_members hP total (closed_primary hP total hts) (forall_mem_drop hts _)
termination_by 8 * ts.length + 1

/-- Each member makes a node of what stands in front of it: a field, or a method with its arguments.
-/
theorem closed_members (hP : Closed q P) (total : Nat) {receiver : Expr} (hreceiver : P receiver) :
    {ts : List Token} → (∀ t ∈ ts, q t) → P (members total receiver ts).value
  | [], _ => by
    rw [members]
    exact hreceiver
  | [dot], _ => by
    rw [members]
    split <;> exact hreceiver
  | [dot, name], _ => by
    rw [members]
    split
    next =>
      split
      next => exact hP.field _ _ _ hreceiver
      next => exact hreceiver
    next => exact hreceiver
  | dot :: name :: t :: inside, hts => by
    have hrest : ∀ t' ∈ t :: inside, q t' := forall_mem_drop hts 2
    have hinside := (List.forall_mem_cons.mp hrest).2
    rw [members]
    split
    next =>
      split
      next =>
        split
        next =>
          -- the arguments are shorter, and what is behind them is shorter still
          have hargs := closed_arguments hP total hinside
          exact closed_members hP total (hP.method _ _ _ _ hreceiver hargs)
            (forall_mem_drop hinside _)
        next => exact closed_members hP total (hP.field _ _ _ hreceiver) hrest
      next => exact hreceiver
    next => exact hreceiver
termination_by ts => 8 * ts.length

/-- Arguments are empty or read one by one. -/
theorem closed_arguments (hP : Closed q P) (total : Nat) :
    {ts : List Token} → (∀ t ∈ ts, q t) → ∀ e ∈ (arguments total ts).value.list, P e
  | [], hts => by
    rw [arguments]
    exact closed_someArguments hP total hts
  | t :: rest, hts => by
    rw [arguments]
    split
    next => exact List.forall_mem_nil _
    next => exact closed_someArguments hP total hts
termination_by ts => 8 * ts.length + 6

theorem closed_someArguments (hP : Closed q P) (total : Nat) {ts : List Token}
    (hts : ∀ t ∈ ts, q t) : ∀ e ∈ (someArguments total ts).value.list, P e := by
  rw [someArguments]
  exact closed_argumentsAfter hP total (closed_expression hP total hts) (forall_mem_drop hts _)
termination_by 8 * ts.length + 5

/-- Each argument has been read as one. -/
theorem closed_argumentsAfter (hP : Closed q P) (total : Nat) {arg : Expr} (harg : P arg) :
    {ts : List Token} → (∀ t ∈ ts, q t) → ∀ e ∈ (argumentsAfter total arg ts).value.list, P e
  | [], _ => by
    rw [argumentsAfter]
    exact List.forall_mem_singleton.mpr harg
  | t :: rest, hts => by
    have hrest := (List.forall_mem_cons.mp hts).2
    rw [argumentsAfter]
    split
    next => exact List.forall_mem_cons.mpr ⟨harg, closed_someArguments hP total hrest⟩
    next => split <;> exact List.forall_mem_singleton.mpr harg
termination_by ts => 8 * ts.length

/-- An operand is made of its first token, and of arguments or of the inside of a parenthesis. -/
theorem closed_primary (hP : Closed q P) (total : Nat) :
    {ts : List Token} → (∀ t ∈ ts, q t) → P (primary total ts).value
  | [], _ => by
    rw [primary]
    exact hP.missing total []
  | t :: rest, hts => by
    obtain ⟨ht, hrest⟩ := List.forall_mem_cons.mp hts
    unfold primary
    split
    next kind hkind => exact hP.literal t kind ht hkind
    next =>
      split
      next hkind =>
        split
        next => exact hP.ident t ht hkind
        -- a name stays one whatever follows, unless it is a parenthesis
        next p inside =>
          split
          next =>
            exact hP.plainCall _ _ _ (closed_arguments hP total (List.forall_mem_cons.mp hrest).2)
          next => exact hP.ident t ht hkind
      next =>
        split
        next => exact hP.closeParen total _ (closed_expression hP total hrest) _
        next => exact hP.missing total (t :: rest)
termination_by ts => 8 * ts.length

end

end Parser

/-- **What reading keeps** holds of the tree that is read, whatever the text. -/
theorem closed_parse {q : Token → Prop} {P : Expr → Prop} (hP : Parser.Closed q P) {source : String}
    (htokens : ∀ t ∈ (lex source).tokens, q t) : P (parse source).expr :=
  Parser.closed_expression hP _ htokens

/-! ### Two things that reading keeps -/

/-- **Nothing that is read is missing:** where the text has a gap, an error stands for it. Only a
call without a receiver has a missing child, as it should. -/
theorem Expr.Filled.closed : Parser.Closed (fun _ => True) Expr.Filled where
  error := .error
  literal := fun t kind _ _ => .literal t.span kind t.text
  ident := fun t _ _ => .ident t.span t.text
  plainCall := fun s name _ => .plainCall s name
  method := fun s name _ _ => .method s name
  field := fun s name _ => .field s name
  unary := fun s op _ => .unary s op
  paren := fun s _ => .paren s
  join := fun s op _ => .join s op
  conditional := fun s _ _ _ => .conditional s

/-- **Whatever the text,** the tree that is read from it is filled. -/
theorem filled_parse (source : String) : (parse source).expr.Filled :=
  closed_parse Expr.Filled.closed fun _ _ => trivial

/-- A name or a literal is that of a token, with its span and its text. -/
def Expr.OfToken (q : Token → Prop) : Expr → Prop
  | .literal s kind text => ∃ t, q t ∧ t.kind.literalKind? = some kind ∧ t.span = s ∧ t.text = text
  | .ident s name => ∃ t, q t ∧ t.kind = .ident ∧ t.span = s ∧ t.text = name
  | _ => True

/-- **Each name and each literal comes from a token.** -/
theorem Expr.closed_every_ofToken (q : Token → Prop) :
    Parser.Closed q fun e => e.Every (Expr.OfToken q) where
  error := fun _ => trivial
  literal := fun t _ ht hkind => ⟨t, ht, hkind, rfl, rfl⟩
  ident := fun t ht hkind => ⟨t, ht, hkind, rfl, rfl⟩
  plainCall := fun _ _ args hargs => ⟨trivial, trivial, (everyOf_iff _ args).mpr hargs⟩
  method := fun _ _ _ args hreceiver hargs => ⟨trivial, hreceiver, (everyOf_iff _ args).mpr hargs⟩
  field := fun _ _ _ hreceiver => ⟨trivial, hreceiver⟩
  unary := fun _ _ _ hoperand => ⟨trivial, hoperand⟩
  paren := fun _ _ hinner => ⟨trivial, hinner⟩
  join := fun s op es _ hes => every_join.mpr ⟨by unfold Expr.join; split <;> trivial, hes⟩
  conditional := fun _ _ _ _ hcond hyes hno => ⟨trivial, hcond, hyes, hno⟩

/-- **Names and literals are those of tokens,** whatever the text. -/
theorem every_ofToken_parse (source : String) :
    (parse source).expr.Every (Expr.OfToken (· ∈ (lex source).tokens)) :=
  closed_parse (Expr.closed_every_ofToken _) fun _ ht => ht

end OperandOrder
