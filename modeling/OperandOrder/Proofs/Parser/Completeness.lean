import OperandOrder.Proofs.Parser.Soundness

/-!
# What is derived is read without errors

`Accepted s ts v` says how the reading functions meet the tokens of a derivation: whatever follows
these tokens, as long as it does not carry them on, the function for the symbol takes exactly them
and hands back the tree of the derivation. Nothing but the next token decides whether something is
carried on (`Followed`). `Derives.accepted` proves this by induction on the derivation, one
production at a time.

The levels need a detour, since the operands of all levels are read in one go. A derivation from
`level k` is first laid out flat (`Laid`), and its tree comes back when the levels up to `k` are
collapsed.

`parse_exact` puts this together with the converse, `Parser.expression_sound`.
-/

namespace OperandOrder

open OperandOrder.Parser

/-! ### What follows -/

/-- The next token, if there is one, is as asked. -/
def Followed (p : TokenKind → Prop) (rest : List Token) : Prop := ∀ t ∈ rest.head?, p t.kind

namespace TokenKind

def EndsPrimary (kind : TokenKind) : Prop := kind ≠ .leftParen

def EndsOperand (kind : TokenKind) : Prop := kind.EndsPrimary ∧ kind ≠ .dot

def EndsOperands (kind : TokenKind) : Prop := kind.EndsOperand ∧ kind.binary? = none

def EndsExpression (kind : TokenKind) : Prop := kind.EndsOperands ∧ kind ≠ .question

/-- A member may follow an operand. -/
theorem endsPrimary_dot : EndsPrimary .dot := nofun

/-- An operator ends an operand. -/
theorem endsOperand_operator (op : BinaryOp) : EndsOperand (.operator op) := ⟨nofun, nofun⟩

/-- A question mark ends an infix expression. -/
theorem endsOperands_question : EndsOperands .question := ⟨⟨nofun, nofun⟩, rfl⟩

theorem endsExpression_colon : EndsExpression .colon := ⟨⟨⟨nofun, nofun⟩, rfl⟩, nofun⟩

/-- A closing parenthesis ends an expression. -/
theorem endsExpression_rightParen : EndsExpression .rightParen := ⟨⟨⟨nofun, nofun⟩, rfl⟩, nofun⟩

theorem endsExpression_comma : EndsExpression .comma := ⟨⟨⟨nofun, nofun⟩, rfl⟩, nofun⟩

end TokenKind

open TokenKind

/-- What follows may be asked less of. -/
theorem Followed.mono {p q : TokenKind → Prop} {rest : List Token} (h : Followed p rest)
    (hpq : ∀ kind, p kind → q kind) : Followed q rest :=
  fun t ht => hpq t.kind (h t ht)

/-- What follows is told from its first token. -/
theorem followed_cons {p : TokenKind → Prop} {t : Token} {rest : List Token} {kind : TokenKind}
    (ht : t.kind = kind) (h : p kind) : Followed p (t :: rest) := by
  intro u hu
  obtain rfl : t = u := Option.some.inj hu
  rwa [ht]

theorem followed_nil (p : TokenKind → Prop) : Followed p [] := nofun

/-- **A reading function takes the tokens `ts`** and no others, whatever follows, and hands
back `v`. -/
def Reads {α : Type} (f : Nat → List Token → Reply α) (ends : TokenKind → Prop) (ts : List Token)
    (v : α) : Prop :=
  ∀ total rest, Followed ends rest → f total (ts ++ rest) = ⟨v, ts.length, []⟩

/-! ### Ends -/

/-- Without a point there are no more members. -/
theorem members_of_followed {total : Nat} {e : Expr} {rest : List Token}
    (h : Followed (· ≠ .dot) rest) : members total e rest = ⟨e, 0, []⟩ := by
  cases rest with
  | nil => rw [members]
  | cons t rest =>
    unfold members
    rw [if_neg (h t rfl)]

/-- Without an operator there are no more operands. -/
theorem operandsAfter_of_followed {total : Nat} {e : Expr} {rest : List Token}
    (h : Followed EndsOperands rest) : operandsAfter total e rest = ⟨⟨e, []⟩, 0, []⟩ := by
  cases rest with
  | nil => rw [operandsAfter]
  | cons t rest => rw [operandsAfter, (h t rfl).2]

/-- Without a question mark there is no conditional. -/
theorem conditional_of_followed {total : Nat} {e : Expr} {rest : List Token}
    (h : Followed (· ≠ .question) rest) : conditional total e rest = ⟨e, 0, []⟩ := by
  cases rest with
  | nil => rw [conditional]
  | cons t rest => rw [conditional, if_neg (h t rfl)]

/-! ### Operands -/

/-- A flat sequence is read as it stands. -/
theorem Spread.reads {ts : List Token} {f : Flat} (h : Spread (Reads unary EndsOperand) ts f) :
    Reads operands EndsOperands ts f := by
  induction h with
  | @one ts e he =>
    intro total rest hrest
    rw [operands, he total rest (hrest.mono fun _ h => h.1)]
    simp only [List.drop_left]
    rw [operandsAfter_of_followed hrest]
    rfl
  | @more ts us t op e f he ht _ ih =>
    intro total rest hrest
    -- the operator ends the operand in front of it, so that is read as it is on its own
    have hop : Followed EndsOperand (t :: (us ++ rest)) :=
      followed_cons ht (endsOperand_operator op)
    rw [List.append_assoc, List.cons_append, operands, he total _ hop]
    simp only [List.drop_left]
    rw [operandsAfter, ht]
    simp only [TokenKind.binary?]
    rw [ih total rest hrest]
    simp only [Reply.after, Flat.append, List.nil_append, List.length_append, List.length_cons]
    rw [Nat.add_comm 1]

/-- **The tokens of a derivation, laid out flat:** operands that are read one by one, and between
them operators of levels up to `k`. -/
structure Laid (k : Nat) (ts : List Token) (f : Flat) : Prop where
  spread : Spread (Reads unary EndsOperand) ts f
  levels : ∀ op ∈ f.ops, op.level ≤ k

/-- Operands that are laid out at one level are laid out at a looser one. -/
theorem Laid.mono {k m : Nat} {ts : List Token} {f : Flat} (h : Laid k ts f) (hkm : k ≤ m) :
    Laid m ts f :=
  ⟨h.spread, fun op hop => (h.levels op hop).trans hkm⟩

/-- Two rows of operands with an operator between them that is not looser than the level. -/
theorem Laid.append {k : Nat} {ts us : List Token} {t : Token} {op : BinaryOp} {f g : Flat}
    (hf : Laid k ts f) (ht : t.kind = .operator op) (hop : op.level ≤ k) (hg : Laid k us g) :
    Laid k (ts ++ t :: us) (f.append op g) := by
  refine ⟨hf.spread.append ht hg.spread, fun o ho => ?_⟩
  rw [Flat.ops_append] at ho
  rcases List.mem_append.mp ho with ho | ho
  · exact hf.levels o ho
  · rcases List.mem_cons.mp ho with rfl | ho
    · exact hop
    · exact hg.levels o ho

/-! ### One production at a time -/

/-- **How the reading functions meet a derivation** from each of the symbols. -/
def Accepted : (s : Symbol) → List Token → s.Value → Prop
  | .expr, ts, (e : Expr) => Reads expression EndsExpression ts e
  | .level k, ts, (e : Expr) => ∃ f, Laid k ts f ∧ f.collapseTo k = ⟨e, []⟩
  | .tail k, us, (rest : List (BinaryOp × Expr)) => (∀ p ∈ rest, p.1.level = k) ∧
    ∀ ts f e, Laid (k - 1) ts f → f.collapseTo (k - 1) = ⟨e, []⟩ →
      ∃ g, Laid k (ts ++ us) g ∧ g.collapseTo (k - 1) = ⟨e, rest⟩
  | .members, ts, (e : Expr) => ∀ total rest, Followed EndsPrimary rest →
    memberChain total (ts ++ rest) = (members total e rest).after ts.length []
  | .primary, ts, (e : Expr) => Reads primary EndsPrimary ts e
  | .args, ts, (as : Arguments) => ∃ o us, ts = o :: us ∧ o.kind = .leftParen ∧
    Reads arguments (fun _ => True) us as
  | .list, ts, (as : Arguments) => Reads someArguments (fun _ => True) ts as

namespace Accepted

variable {ts us : List Token} {e : Expr}

/-- What is left to read behind an infix expression is at most a conditional. -/
theorem operands_of_level (h : Accepted (.level 12) ts e) {total : Nat} {rest : List Token}
    (hrest : Followed EndsOperands rest) :
    expression total (ts ++ rest) = (conditional total e rest).after ts.length [] := by
  obtain ⟨f, hlaid, hf⟩ := h
  have hgroup : f.group = e := by rw [Flat.group_eq_collapseTo, hf]
  rw [expression, hlaid.spread.reads total rest hrest]
  simp only [List.drop_left]
  rw [hgroup]

/-- An infix expression is accepted as an expression. -/
theorem plain (h : Accepted (.level 12) ts e) : Accepted .expr ts e := by
  intro total rest hrest
  rw [operands_of_level h (hrest.mono fun _ h => h.1),
    conditional_of_followed (hrest.mono fun _ h => h.2)]
  rfl

/-- **A conditional is accepted:** the condition ends at the question mark, and the branch behind it
at the colon. -/
theorem conditional {cs ys ns : List Token} {q l : Token} {c y n : Expr}
    (hc : Accepted (.level 12) cs c) (hq : q.kind = .question) (hy : Accepted .expr ys y)
    (hl : l.kind = .colon) (hn : Accepted .expr ns n) :
    Accepted .expr (cs ++ q :: (ys ++ l :: ns))
      (Expr.conditional (c.span.merge n.span) c y n) := by
  intro total rest hrest
  have hcolon : Followed EndsExpression (l :: (ns ++ rest)) := followed_cons hl endsExpression_colon
  -- the condition ends at the question mark, and what is read between there and the colon is `y`
  rw [List.append_assoc, List.cons_append, List.append_assoc, List.cons_append,
    operands_of_level hc (followed_cons hq endsOperands_question), Parser.conditional, if_pos hq]
  simp only
  rw [hy total _ hcolon]
  simp only [List.drop_left]
  rw [alternative, if_pos hl, hn total rest hrest]
  simp only [Reply.after, List.length_append, List.length_cons, List.append_nil]
  congr 1
  omega

/-- **A level is accepted:** the first operand and the tail are laid out as one row, of which
grouping makes the tree of the level. -/
theorem level {k : Nat} {rest : List (BinaryOp × Expr)} (hk : 2 ≤ k)
    (he : Accepted (.level k) ts e) (hrest : Accepted (.tail (k + 1)) us rest) :
    Accepted (.level (k + 1)) (ts ++ us) (levelTree e rest) := by
  obtain ⟨f, hlaid, hf⟩ := he
  obtain ⟨hlevel, htail⟩ := hrest
  obtain ⟨g, hlaid', hg⟩ := htail ts f e hlaid hf
  refine ⟨g, hlaid', ?_⟩
  rw [Flat.collapseTo_succ hk]
  calc (g.collapseTo k).collapse (k + 1)
      = (⟨e, rest⟩ : Flat).collapse (k + 1) := congrArg (Flat.collapse · (k + 1)) hg
    _ = ⟨levelTree e rest, []⟩ := Flat.collapse_of_level hlevel

/-- One more operator of a level, with its operand. -/
theorem next {k : Nat} {t : Token} {op : BinaryOp} {rest : List (BinaryOp × Expr)}
    (ht : t.kind = .operator op) (hop : op.level = k + 1) (he : Accepted (.level k) ts e)
    (hrest : Accepted (.tail (k + 1)) us rest) :
    Accepted (.tail (k + 1)) (t :: (ts ++ us)) ((op, e) :: rest) := by
  obtain ⟨f, hlaid, hf⟩ := he
  obtain ⟨hlevel, htail⟩ := hrest
  obtain ⟨g, hlaid', hg⟩ := htail ts f e hlaid hf
  refine ⟨List.forall_mem_cons.mpr ⟨hop, hlevel⟩, fun ts₀ f₀ e₀ hlaid₀ hf₀ => ?_⟩
  refine ⟨f₀.append op g, (hlaid₀.mono (Nat.le_succ k)).append ht hop.le hlaid', ?_⟩
  -- the operator is of a level that is not collapsed yet, so the two sides are collapsed apart
  change (f₀.append op g).collapseTo k = _
  rw [Flat.collapseTo_append f₀ g (by omega), show f₀.collapseTo k = _ from hf₀,
    show g.collapseTo k = _ from hg]
  rfl

/-- An operand on its own is read as such. -/
theorem reads_of_level_two (h : Accepted (.level 2) ts e) : Reads unary EndsOperand ts e := by
  obtain ⟨f, hlaid, hf⟩ := h
  obtain rfl : f = ⟨e, []⟩ := hf
  -- there are no operators in `⟨e, []⟩`, so it is laid out as one operand
  have hspread := hlaid.spread
  generalize hflat : (⟨e, []⟩ : Flat) = f at hspread
  cases hspread with
  | one he =>
    obtain ⟨rfl, -⟩ := Flat.mk.inj hflat
    exact he
  | more he ht hf => exact absurd (Flat.mk.inj hflat).2 (by simp)

theorem level_two (h : Reads unary EndsOperand ts e) : Accepted (.level 2) ts e :=
  ⟨⟨e, []⟩, ⟨.one h, fun _ hop => absurd hop List.not_mem_nil⟩, rfl⟩

/-- An operand with a sign in front of it. -/
theorem unary {t : Token} {op : UnaryOp} (ht : t.kind.unary? = some op)
    (he : Accepted (.level 2) ts e) :
    Accepted (.level 2) (t :: ts) (Expr.unary (t.span.merge e.span) op e) := by
  refine level_two fun total rest hrest => ?_
  rw [List.cons_append, Parser.unary, ht]
  simp only
  rw [reads_of_level_two he total rest hrest, List.length_cons, Nat.add_comm]

/-- Members without a sign in front of them. What begins with such a sign would be read as its
operand. -/
theorem operand (hts : Derives.Begins .members ts) (h : Accepted .members ts e) :
    Accepted (.level 2) ts e := by
  refine level_two fun total rest hrest => ?_
  have hmembers : memberChain total (ts ++ rest) = ⟨e, ts.length, []⟩ := by
    rw [h total rest (hrest.mono fun _ h => h.1), members_of_followed (hrest.mono fun _ h => h.2)]
    rfl
  -- the first token is no unary operator, so reading goes on with the members
  obtain ⟨t, us, rfl, -, ht⟩ := hts
  rw [List.cons_append, Parser.unary, ht]
  exact hmembers

/-- An operand that no member follows yet. -/
theorem first (h : Accepted .primary ts e) : Accepted .members ts e := by
  intro total rest hrest
  rw [memberChain, h total rest hrest]
  simp only [List.drop_left]

/-- The access to a field is taken up by the loop over members, and that goes on behind the name. -/
theorem field {dot name : Token} (he : Accepted .members ts e) (hdot : dot.kind = .dot)
    (hname : name.kind = .ident) :
    Accepted .members (ts ++ [dot, name]) (Expr.field (e.span.merge name.span) e name.text) := by
  intro total rest hrest
  rw [List.append_assoc, List.cons_append, List.singleton_append,
    he total _ (followed_cons hdot endsPrimary_dot)]
  -- the name is not that of a call, since no parenthesis follows
  cases rest with
  | nil =>
    have hlast : ∀ e', members total e' [] = ⟨e', 0, []⟩ :=
      fun _ => members_of_followed (followed_nil _)
    rw [hlast, members, if_pos hdot, if_pos hname]
    simp [Reply.after]
  | cons t rest =>
    rw [members, if_pos hdot, if_pos hname, if_neg (hrest t rfl)]
    simp only [Reply.after, List.length_append, List.length_cons, List.length_nil, List.nil_append]
    congr 1
    omega

/-- The call of a method is taken up by the loop over members, and that goes on behind the
arguments. -/
theorem method {dot name : Token} {as : Arguments} (he : Accepted .members ts e)
    (hdot : dot.kind = .dot) (hname : name.kind = .ident) (has : Accepted .args us as) :
    Accepted .members (ts ++ dot :: name :: us)
      (Expr.call (e.span.merge as.close) e name.text as.list) := by
  intro total rest hrest
  obtain ⟨o, inside, rfl, ho, hread⟩ := has
  rw [List.append_assoc, List.cons_append, he total _ (followed_cons hdot endsPrimary_dot),
    List.cons_append, List.cons_append, members, if_pos hdot, if_pos hname, if_pos ho]
  simp only
  rw [hread total rest fun _ _ => trivial]
  simp only [List.drop_left, Reply.after, List.length_append, List.length_cons, List.nil_append]
  congr 1
  omega

/-- A literal is read as soon as it is seen. -/
theorem literal {t : Token} {kind : LiteralKind} (ht : t.kind.literalKind? = some kind) :
    Accepted .primary [t] (Expr.literal t.span kind t.text) := by
  intro total rest _
  rw [List.singleton_append]
  unfold primary
  rw [ht]
  rfl

/-- A name is no call if no parenthesis follows. -/
theorem ident {t : Token} (ht : t.kind = .ident) :
    Accepted .primary [t] (Expr.ident t.span t.text) := by
  intro total rest hrest
  have hliteral : t.kind.literalKind? = none := by
    rw [ht]
    rfl
  rw [List.singleton_append]
  unfold primary
  rw [hliteral, if_pos ht]
  cases rest with
  | nil => rfl
  | cons p inside =>
    simp only
    rw [if_neg (hrest p rfl)]
    rfl

/-- A name with arguments behind it. -/
theorem call {t : Token} {as : Arguments} (ht : t.kind = .ident) (has : Accepted .args us as) :
    Accepted .primary (t :: us) (Expr.call (t.span.merge as.close) .absent t.text as.list) := by
  intro total rest _
  obtain ⟨o, inside, rfl, ho, hread⟩ := has
  have hliteral : t.kind.literalKind? = none := by
    rw [ht]
    rfl
  rw [List.cons_append, List.cons_append]
  unfold primary
  rw [hliteral, if_pos ht]
  simp only
  rw [if_pos ho, hread total rest fun _ _ => trivial]
  simp only [List.length_cons]
  congr 1
  omega

/-- A parenthesis that is closed. -/
theorem paren {o c : Token} (ho : o.kind = .leftParen) (he : Accepted .expr ts e)
    (hc : c.kind = .rightParen) :
    Accepted .primary (o :: (ts ++ [c])) (Expr.paren (o.span.merge c.span) e) := by
  intro total rest _
  -- a parenthesis is neither a literal nor a name, so it is looked at last
  have hliteral : o.kind.literalKind? = none := by
    rw [ho]
    rfl
  have hident : ¬o.kind = .ident := by
    rw [ho]
    exact nofun
  rw [List.cons_append, List.append_assoc]
  unfold primary
  rw [hliteral, if_neg hident, if_pos ho]
  simp only
  rw [List.singleton_append, he total _ (followed_cons hc endsExpression_rightParen)]
  simp only [List.drop_left]
  rw [closeParen, if_pos hc]
  simp only [Reply.after, List.length_cons, List.length_append, List.length_nil, List.append_nil]
  congr 1
  omega

/-- An empty list of arguments is closed at once. -/
theorem noArgs {o c : Token} (ho : o.kind = .leftParen) (hc : c.kind = .rightParen) :
    Accepted .args [o, c] ⟨[], c.span⟩ := by
  refine ⟨o, [c], rfl, ho, fun total rest _ => ?_⟩
  rw [List.singleton_append, arguments, if_pos hc]
  rfl

/-- A list of arguments that does not begin with its end. -/
theorem someArgs {o : Token} {as : Arguments} (ho : o.kind = .leftParen)
    (hus : Derives.Begins .list us) (h : Accepted .list us as) : Accepted .args (o :: us) as := by
  refine ⟨o, us, rfl, ho, fun total rest hrest => ?_⟩
  have hsome := h total rest hrest
  -- the list is not closed at once
  obtain ⟨t, us, rfl, ht⟩ := hus
  rw [List.cons_append, arguments, if_neg ht]
  exact hsome

/-- The last argument is followed by the sign that closes the list. -/
theorem lastArg {c : Token} (he : Accepted .expr ts e) (hc : c.kind = .rightParen) :
    Accepted .list (ts ++ [c]) ⟨[e], c.span⟩ := by
  intro total rest _
  have hcomma : ¬c.kind = .comma := by
    rw [hc]
    exact nofun
  rw [List.append_assoc, List.singleton_append, someArguments,
    he total _ (followed_cons hc endsExpression_rightParen)]
  simp only [List.drop_left]
  rw [argumentsAfter, if_neg hcomma, if_pos hc]
  simp [Reply.after]

/-- An argument with a comma behind it is not the last. -/
theorem nextArg {comma : Token} {as : Arguments} (he : Accepted .expr ts e)
    (hcomma : comma.kind = .comma) (has : Accepted .list us as) :
    Accepted .list (ts ++ comma :: us) ⟨e :: as.list, as.close⟩ := by
  intro total rest hrest
  rw [List.append_assoc, List.cons_append, someArguments,
    he total _ (followed_cons hcomma endsExpression_comma)]
  simp only [List.drop_left]
  rw [argumentsAfter, if_pos hcomma, has total rest hrest]
  simp only [Reply.after, List.length_append, List.length_cons, List.append_nil]
  congr 1
  omega

end Accepted

/-- **What is derived is read** as the derivation says. -/
theorem Derives.accepted {s : Symbol} {ts : List Token} {v : s.Value} (h : Derives s ts v) :
    Accepted s ts v := by
  -- one lemma for each production; only `last` has nothing to read
  induction h with
  | plain _ ih => exact ih.plain
  | conditional _ hq _ hl _ ihc ihy ihn => exact ihc.conditional hq ihy hl ihn
  | level hk _ _ ihe ihrest => exact ihe.level hk ihrest
  | last =>
    refine ⟨fun p hp => absurd hp List.not_mem_nil, fun ts f e hlaid hf => ⟨f, ?_, hf⟩⟩
    rw [List.append_nil]
    exact hlaid.mono (Nat.sub_le ..)
  | next ht hop _ _ ihe ihrest => exact ihe.next ht hop ihrest
  | unary ht _ ih => exact ih.unary ht
  | operand h ih => exact ih.operand h.begins
  | first _ ih => exact ih.first
  | field _ hdot hname ih => exact ih.field hdot hname
  | method _ hdot hname _ ihe ihas => exact ihe.method hdot hname ihas
  | literal ht => exact .literal ht
  | ident ht => exact .ident ht
  | call ht _ ih => exact ih.call ht
  | paren ho _ hc ih => exact ih.paren ho hc
  | noArgs ho hc => exact .noArgs ho hc
  | someArgs ho h ih => exact ih.someArgs ho h.begins
  | lastArg _ hc ih => exact ih.lastArg hc
  | nextArg _ hcomma _ ihe ihas => exact ihe.nextArg hcomma ihas

/-! ### Whole sources -/

/-- Errors come in the order of the text, and all of them do. -/
theorem parse_errors_eq_nil_iff (source : String) :
    (parse source).errors = [] ↔
      (lex source).errors = [] ∧
        (expression (min (Text.width source.toList) Span.limit) (lex source).tokens).errors = [] ∧
          (expression (min (Text.width source.toList) Span.limit) (lex source).tokens).used ≥
            (lex source).tokens.length := by
  have hsorted : ∀ es : List ParseError,
      (es.mergeSort fun a b => a.span.start ≤ b.span.start) = [] ↔ es = [] := by
    intro es
    rw [← List.length_eq_zero_iff, List.length_mergeSort, List.length_eq_zero_iff]
  have hleftover : ∀ (total : Nat) (ts : List Token), leftover total ts = [] ↔ ts = [] := by
    intro total ts
    cases ts <;> simp [leftover]
  rw [parse]
  simp only [hsorted, List.append_eq_nil_iff, hleftover, List.drop_eq_nil_iff]

/-- Reading a source of which the tokens are derived. -/
theorem parse_of_derives {source : String} {e : Expr} (hlex : (lex source).errors = [])
    (he : Derives .expr (lex source).tokens e) :
    (parse source).errors = [] ∧ (parse source).expr = e := by
  have hread : ∀ total, expression total (lex source).tokens =
      ⟨e, (lex source).tokens.length, []⟩ := by
    intro total
    have haccepted := he.accepted total [] (followed_nil _)
    rwa [List.append_nil] at haccepted
  refine ⟨?_, ?_⟩
  · rw [parse_errors_eq_nil_iff, hread]
    exact ⟨hlex, rfl, Nat.le_refl _⟩
  · rw [parse]
    simp only [hread]

/-- A source that is read without errors has a derivation. -/
theorem derives_of_parse {source : String} (h : (parse source).errors = []) :
    (lex source).errors = [] ∧ Derives .expr (lex source).tokens (parse source).expr := by
  obtain ⟨hlex, herrors, hused⟩ := (parse_errors_eq_nil_iff source).mp h
  obtain ⟨-, he⟩ := expression_sound _ _ herrors
  rw [List.take_of_length_le hused] at he
  exact ⟨hlex, he⟩

/-- **What is read without errors is what the grammar derives.** A source gives no error if and only
if cutting it into tokens gives none and the tokens are derived from an expression; and then its
tree is that of the derivation, in which nothing is missing. -/
theorem parse_exact (source : String) :
    ((parse source).errors = [] ↔
      (lex source).errors = [] ∧ ∃ e, Derives .expr (lex source).tokens e) ∧
    ∀ e, (lex source).errors = [] → Derives .expr (lex source).tokens e →
      (parse source).expr = e ∧ e.IsWhole (fun _ => True) fun _ _ => True := by
  refine ⟨⟨fun h => ?_, fun h => ?_⟩, fun e hlex he => ⟨(parse_of_derives hlex he).2, ?_⟩⟩
  · obtain ⟨hlex, he⟩ := derives_of_parse h
    exact ⟨hlex, _, he⟩
  · obtain ⟨hlex, e, he⟩ := h
    exact (parse_of_derives hlex he).1
  · exact he.isWhole fun _ _ => ⟨fun _ => trivial, fun _ _ => trivial⟩

end OperandOrder
