import OperandOrder.Proofs.Parser.Completeness
import OperandOrder.Proofs.Parser.Levels
import OperandOrder.Proofs.Parser.Progress

/-!
# Recursive descent comes to an end

Every call that is made on the way lies below the call it is made from, so none goes on for ever
(`wellFounded_calls`). By induction along the calls every procedure has an answer, and with that it
is known what the answer is (`agrees`): what `Parser` gives for the tokens at the cursor, though
`Parser` reads all operands at once and groups them afterwards. Each procedure is one step, from the
answers of all it calls to its own. For a level of binary operators this is `Parser.levelTo_succ`.

`reading_ends` says this together with what the answers have in common. Of the three loops only that
over arguments can take a turn that passes no token over, its last: in `f(` the argument is missing,
and so is what should close the call (`turn_without_token`).
-/

namespace OperandOrder

/-! ### Replies at a cursor -/

/-- A reply to the tokens at a cursor: its value, and the cursor behind what it takes. -/
def Reply.at {α : Type} (r : Reply α) (c : Cursor) : α × Cursor :=
  (r.value, ⟨c.pos + r.used, c.errors ++ r.errors⟩)

namespace Cursor

variable {total : Nat} {tokens : List Token} {c : Cursor} {kind : TokenKind} {t : Token}
    {us : List Token}

/-- The next token is the first of those that are left. -/
theorem next?_eq_head? (tokens : List Token) (c : Cursor) :
    c.next? tokens = (c.rest tokens).head? :=
  List.head?_drop.symm

/-- The operator at a cursor is the one in front of the tokens that are left. -/
theorem operator?_eq (tokens : List Token) (c : Cursor) (level : Nat) :
    c.operator? tokens level = Parser.operator? (·.level == level) (c.rest tokens) := by
  rw [operator?, next?_eq_head?, Parser.operator?]

theorem next?_of_rest (h : c.rest tokens = t :: us) : c.next? tokens = some t := by
  rw [next?_eq_head?, h, List.head?_cons]

theorem advance_of_rest (h : c.rest tokens = t :: us) : c.advance tokens = ⟨c.pos + 1, c.errors⟩ :=
  advance_of_next? (next?_of_rest h)

/-- A step to the next token leaves the others. -/
theorem rest_advance (h : c.rest tokens = t :: us) : (c.advance tokens).rest tokens = us := by
  have hdrop : tokens.drop (c.pos + 1) = (tokens.drop c.pos).drop 1 := List.drop_drop.symm
  rw [advance_of_rest h, rest, hdrop, show tokens.drop c.pos = t :: us from h]
  rfl

/-- A token of a kind stands at the cursor, or nothing of this kind does. -/
theorem rest_cases (tokens : List Token) (c : Cursor) (kind : TokenKind) :
    (∃ t us, c.rest tokens = t :: us ∧ t.kind = kind) ∨ Followed (· ≠ kind) (c.rest tokens) := by
  cases c.rest tokens with
  | nil => exact .inr (followed_nil _)
  | cons t us =>
    by_cases hkind : t.kind = kind
    · exact .inl ⟨t, us, rfl, hkind⟩
    · exact .inr (followed_cons rfl hkind)

theorem isAt_of_rest (h : c.rest tokens = t :: us) (hkind : t.kind = kind) :
    c.isAt tokens kind = true :=
  isAt_iff.mpr ⟨t, next?_of_rest h, hkind⟩

/-- A kind that does not follow is not there. -/
theorem isAt_of_followed (h : Followed (· ≠ kind) (c.rest tokens)) :
    c.isAt tokens kind = false := by
  refine Bool.eq_false_iff.mpr fun hat => ?_
  obtain ⟨t, ht, hkind⟩ := isAt_iff.mp hat
  rw [next?_eq_head?] at ht
  exact h t ht hkind

/-- A token that is there is taken. -/
theorem eat_of_rest (h : c.rest tokens = t :: us) (hkind : t.kind = kind) :
    c.eat tokens kind = (some t, c.advance tokens) := by
  rw [eat, isAt_of_rest h hkind, if_pos rfl, next?_of_rest h]

/-- A token that is not there is not taken. -/
theorem eat_of_followed (h : Followed (· ≠ kind) (c.rest tokens)) :
    c.eat tokens kind = (none, c) := by
  rw [eat, isAt_of_followed h, if_neg Bool.false_ne_true]

/-- A token that is asked for and there is taken. -/
theorem expect_of_rest (h : c.rest tokens = t :: us) (hkind : t.kind = kind) (what : Expectation) :
    c.expect total tokens kind what = (some t, c.advance tokens) := by
  rw [expect, eat_of_rest h hkind]

/-- A token that is asked for and not there is reported. -/
theorem expect_of_followed (h : Followed (· ≠ kind) (c.rest tokens)) (what : Expectation) :
    c.expect total tokens kind what = (none, c.record total tokens what) := by
  rw [expect, eat_of_followed h]

end Cursor

namespace Reply

variable {α β : Type} {total : Nat} {tokens : List Token} {c c₁ : Cursor} {t : Token}
    {us : List Token} {r : Reply α}
  {v : α}

theorem at_stop (v : α) (c : Cursor) : (⟨v, 0, []⟩ : Reply α).at c = (v, c) := by
  simp [Reply.at]

/-- A reply that takes one token. -/
theorem at_one (h : c.rest tokens = t :: us) (v : α) :
    (⟨v, 1, []⟩ : Reply α).at c = (v, c.advance tokens) := by
  rw [Cursor.advance_of_rest h]
  simp [Reply.at]

/-- A reply behind one token. -/
theorem at_after_one (h : c.rest tokens = t :: us) (r : Reply α) :
    (r.after 1 []).at c = r.at (c.advance tokens) := by
  rw [Cursor.advance_of_rest h]
  simp [Reply.at, after, Nat.add_assoc]

/-- A reply goes on where an earlier one has led to. -/
theorem at_after (f : α → List Token → Reply β) (h : r.at c = (v, c₁)) :
    ((f r.value ((c.rest tokens).drop r.used)).after r.used r.errors).at c =
      (f v (c₁.rest tokens)).at c₁ := by
  obtain ⟨rfl, rfl⟩ := Prod.mk.inj h
  have hrest : tokens.drop (c.pos + r.used) = (tokens.drop c.pos).drop r.used := List.drop_drop.symm
  simp only [Reply.at, after, Cursor.rest, hrest, Nat.add_assoc, List.append_assoc]

/-- A reply goes on where an earlier one behind a token has led to. -/
theorem at_after_cons (f : α → List Token → Reply β) (hrest : c.rest tokens = t :: us)
    (h : r.at (c.advance tokens) = (v, c₁)) :
    ((f r.value (us.drop r.used)).after (1 + r.used) r.errors).at c =
      (f v (c₁.rest tokens)).at c₁ := by
  have hsplit : (f r.value (us.drop r.used)).after (1 + r.used) r.errors =
      ((f r.value (us.drop r.used)).after r.used r.errors).after 1 [] :=
        (after_after 1 r.used [] r.errors).symm
  rw [hsplit, at_after_one hrest, ← Cursor.rest_advance hrest]
  exact at_after f h

/-- Nothing more is taken behind an earlier reply. -/
theorem at_cons (f : α → β) (hrest : c.rest tokens = t :: us)
    (h : r.at (c.advance tokens) = (v, c₁)) :
    (⟨f r.value, 1 + r.used, r.errors⟩ : Reply β).at c = (f v, c₁) := by
  obtain ⟨rfl, rfl⟩ := Prod.mk.inj h
  rw [Cursor.advance_of_rest hrest]
  simp [Reply.at, Nat.add_assoc]

end Reply

/-! ### One look at a time -/

namespace Parser

variable (total : Nat) {ts : List Token}

/-- An expression is read up to the loosest operators, and then a conditional may follow. -/
theorem expression_eq (ts : List Token) : expression total ts =
    (conditional total (levelTo total 12 ts).value (ts.drop (levelTo total 12 ts).used)).after
      (levelTo total 12 ts).used (levelTo total 12 ts).errors := by
  rw [expression, ← map_group_operands]
  rfl

/-- Without a colon there is no other branch. -/
theorem alternative_of_followed (h : Followed (· ≠ .colon) ts) (cond yes : Expr) :
    alternative total cond yes ts = withoutColon total cond yes ts := by
  cases ts with
  | nil => rw [alternative]
  | cons t us => rw [alternative, if_neg (h t rfl)]

/-- A point without a name behind it ends the members with an error. -/
theorem members_without_name {dot : Token} (hdot : dot.kind = .dot) (h : Followed (· ≠ .ident) ts)
    (receiver : Expr) : members total receiver (dot :: ts) =
      (⟨receiver, 0, [expected total .memberName ts]⟩ : Reply Expr).after 1 [] := by
  unfold members
  rw [if_pos hdot]
  cases ts with
  | nil => rfl
  | cons t us => exact if_neg (h t rfl)

/-- A name behind a point, without a parenthesis behind it, is a field. -/
theorem members_field {dot name : Token} (hdot : dot.kind = .dot) (hname : name.kind = .ident)
    (h : Followed (· ≠ .leftParen) ts) (receiver : Expr) :
    members total receiver (dot :: name :: ts) =
      ((members total (.field (receiver.span.merge name.span) receiver name.text) ts).after 1
        []).after 1 [] := by
  cases ts with
  | nil =>
    rw [members_of_followed (followed_nil _), members, if_pos hdot, if_pos hname]
    rfl
  | cons t us =>
    rw [members, if_pos hdot, if_pos hname, if_neg (h t rfl), Reply.after_after]
    rfl

/-- A name behind a point, with a parenthesis behind it, is a method. -/
theorem members_method {dot name p : Token} (hdot : dot.kind = .dot) (hname : name.kind = .ident)
    (hparen : p.kind = .leftParen) (ts : List Token) (receiver : Expr) :
    members total receiver (dot :: name :: p :: ts) =
      (((members total
        (.call (receiver.span.merge (arguments total ts).value.close) receiver name.text
        (arguments total ts).value.list) (ts.drop (arguments total ts).used)).after
          (1 + (arguments total ts).used) (arguments total ts).errors).after 1 []).after 1 [] := by
  rw [members, if_pos hdot, if_pos hname, if_pos hparen, Reply.after_after, Reply.after_after,
    ← Nat.add_assoc]
  rfl

/-- Arguments that are not closed at once are read one by one. -/
theorem arguments_of_followed (h : Followed (· ≠ .rightParen) ts) :
    arguments total ts = someArguments total ts := by
  cases ts with
  | nil => rw [arguments]
  | cons t us => rw [arguments, if_neg (h t rfl)]

/-- Neither a comma nor a parenthesis: the list ends, and the parenthesis is reported. -/
theorem argumentsAfter_of_followed (hcomma : Followed (· ≠ .comma) ts)
    (h : Followed (· ≠ .rightParen) ts) (arg : Expr) :
    argumentsAfter total arg ts = withoutClose total arg ts := by
  cases ts with
  | nil => rw [argumentsAfter]
  | cons t us => rw [argumentsAfter, if_neg (hcomma t rfl), if_neg (h t rfl)]

/-- A parenthesis that is not closed ends with what is inside. -/
theorem closeParen_of_followed (h : Followed (· ≠ .rightParen) ts) (start : Span) (inner : Expr) :
    closeParen total start inner ts =
      ⟨.paren (start.merge inner.span) inner, 0, [expected total .closingParen ts]⟩ := by
  cases ts with
  | nil => rw [closeParen]
  | cons t us => rw [closeParen, if_neg (h t rfl)]

/-- A name without a parenthesis behind it is an identifier. -/
theorem primary_ident {t : Token} (hkind : t.kind = .ident) (h : Followed (· ≠ .leftParen) ts) :
    primary total (t :: ts) = ⟨.ident t.span t.text, 1, []⟩ := by
  have hliteral : t.kind.literalKind? = none := by rw [hkind]; rfl
  unfold primary
  rw [hliteral, if_pos hkind]
  cases ts with
  | nil => rfl
  | cons p us => exact if_neg (h p rfl)

/-- A name with a parenthesis behind it is a call. -/
theorem primary_call {t p : Token} (hkind : t.kind = .ident) (hkind' : p.kind = .leftParen)
    (ts : List Token) :
    primary total (t :: p :: ts) =
      (⟨.call (t.span.merge (arguments total ts).value.close) .absent t.text
      (arguments total ts).value.list, 1 + (arguments total ts).used, (arguments total ts).errors⟩ :
        Reply Expr).after 1 [] := by
  have hliteral : t.kind.literalKind? = none := by rw [hkind]; rfl
  rw [primary, hliteral]
  simp only [if_pos hkind, if_pos hkind', Reply.after, ← Nat.add_assoc, List.nil_append]

/-- A parenthesis is one, closed or not. -/
theorem exists_closeParen (start : Span) (inner : Expr) (ts : List Token) :
    ∃ s, (closeParen total start inner ts).value = .paren s inner := by
  unfold closeParen
  split
  · exact ⟨_, rfl⟩
  · split <;> exact ⟨_, rfl⟩

/-- Where an operand is missing, no token is taken. -/
theorem used_of_value_eq_error {s : Span} (h : (primary total ts).value = .error s) :
    (primary total ts).used = 0 := by
  cases ts with
  | nil => rw [primary]
  | cons t us =>
    by_cases hident : t.kind = .ident
    · -- a name, and a call if an opening parenthesis follows
      exfalso
      cases us with
      | nil => simp [primary_ident total hident (followed_nil _)] at h
      | cons p vs =>
        by_cases hparen : p.kind = .leftParen
        · simp [primary_call total hident hparen, Reply.after] at h
        · simp [primary_ident total hident (followed_cons rfl hparen)] at h
    · unfold primary at h ⊢
      rw [if_neg hident] at h ⊢
      cases hliteral : t.kind.literalKind? with
      | some kind => simp [hliteral] at h
      | none =>
        simp only [hliteral] at h ⊢
        split at h
        next =>
          obtain ⟨s', hs'⟩ := exists_closeParen total t.span (expression total us).value
            (us.drop (expression total us).used)
          cases hs'.symm.trans h
        next hparen => rw [if_neg hparen]

end Parser

namespace Descent

open Cursor

variable (total : Nat) (tokens : List Token)

/-- Closing a parenthesis does not depend on what was read before it. -/
theorem closeParen_eq (start : Span) (inner : Expr) (c : Cursor) :
    closeParen total tokens start inner c =
      (Parser.closeParen total start inner (c.rest tokens)).at c := by
  unfold closeParen
  rcases c.rest_cases tokens .rightParen with ⟨t, us, hrest, hkind⟩ | hne
  · rw [Cursor.expect_of_rest hrest hkind, hrest, Parser.closeParen, if_pos hkind,
      Reply.at_one hrest]
  · rw [Cursor.expect_of_followed hne, Parser.closeParen_of_followed total hne]
    rfl

/-! ### Agreement -/

/-- Arguments behind those that have been read. -/
def behind (earlier : List Expr) (args : Arguments) : Arguments :=
  ⟨earlier ++ args.list, args.close⟩

/-- **A call that agrees** with reading all operands at once: it has an answer, and that is the
reply to the tokens that are left. A turn of a loop has an answer. -/
def Call.Agrees : Call → Prop
  | ⟨.expression, c⟩ =>
    expression total tokens c = some ((Parser.expression total (c.rest tokens)).at c)
  | ⟨.conditional, c⟩ =>
    conditional total tokens c = some ((Parser.expression total (c.rest tokens)).at c)
  | ⟨.binary level, c⟩ =>
    binary total tokens level c = some ((Parser.levelTo total level (c.rest tokens)).at c)
  | ⟨.chain level run, c⟩ => chain total tokens level run c =
      some (((Parser.levelPairs total level (c.rest tokens)).map fun pairs =>
        (run.extendAll pairs).close).at c)
  | ⟨.chainTurn level run, c⟩ => ∃ t, chainTurn total tokens level run c = some t
  | ⟨.unary, c⟩ => unary total tokens c = some ((Parser.unary total (c.rest tokens)).at c)
  | ⟨.accessed, c⟩ =>
    accessed total tokens c = some ((Parser.memberChain total (c.rest tokens)).at c)
  | ⟨.members receiver, c⟩ =>
      members total tokens receiver c = some ((Parser.members total receiver (c.rest tokens)).at c)
  | ⟨.memberTurn receiver, c⟩ => ∃ t, memberTurn total tokens receiver c = some t
  | ⟨.arguments, c⟩ => arguments total tokens c =
      some ((Parser.arguments total ((c.advance tokens).rest tokens)).at (c.advance tokens))
  | ⟨.argumentsFrom args, c⟩ => argumentsFrom total tokens args c =
      some (((Parser.someArguments total (c.rest tokens)).map (behind args)).at c)
  | ⟨.argumentTurn args, c⟩ => ∃ t, argumentTurn total tokens args c = some t
  | ⟨.primary, c⟩ => primary total tokens c = some ((Parser.primary total (c.rest tokens)).at c)

/-- All calls that are made on the way agree. -/
def CalleesAgree (call : Call) : Prop :=
  ∀ call', Relation.TransGen (fun call' call => Calls total tokens call call') call' call →
    call'.Agrees total tokens

namespace CalleesAgree

variable {total tokens} {call call' call'' : Call}

/-- What is called directly has been dealt with. -/
theorem of_calls (h : CalleesAgree total tokens call) (hcall : Calls total tokens call call') :
    call'.Agrees total tokens :=
  h call' (.single hcall)

/-- What has been dealt with for a call has been dealt with for those that it makes. -/
theorem callee (h : CalleesAgree total tokens call) (hcall : Calls total tokens call call') :
    CalleesAgree total tokens call' :=
  fun call'' hcall' => h call'' (.tail hcall' hcall)

end CalleesAgree

section Agreement

variable {total tokens} {c : Cursor} {level : Nat} {run : Run} {receiver : Expr} {args : List Expr}

/-- An answer, taken apart. -/
theorem exists_answer {α : Type} {answer : Option (α × Cursor)} {r : Reply α}
    (h : answer = some (r.at c)) : ∃ v c₁, answer = some (v, c₁) ∧ r.at c = (v, c₁) :=
  ⟨_, _, h, rfl⟩

/-- The condition is read first; a question mark decides whether there are branches, and a colon
whether there is a second. -/
theorem agrees_conditional (h : CalleesAgree total tokens ⟨.conditional, c⟩) :
    Call.Agrees total tokens ⟨.conditional, c⟩ := by
  show conditional total tokens c = some ((Parser.expression total (c.rest tokens)).at c)
  obtain ⟨cond, c₁, hcond, hr⟩ := exists_answer (h.of_calls (.condition c))
  rw [loosest] at hr
  rw [conditional, hcond, Parser.expression_eq, Reply.at_after (Parser.conditional total) hr]
  simp only [Option.bind_eq_bind, Option.bind_some]
  -- both go on behind the condition, and both look for a question mark there
  rcases c₁.rest_cases tokens .question with ⟨t, us, hrest, hkind⟩ | hne
  · have heat := Cursor.eat_of_rest hrest hkind
    obtain ⟨yes, c₂, hyes, hr'⟩ := exists_answer (h.of_calls (.yes hcond heat))
    rw [Cursor.rest_advance hrest] at hr'
    rw [hrest, Parser.conditional, if_pos hkind, heat,
      Reply.at_after_cons (Parser.alternative total cond) hrest hr']
    simp only [hyes, Option.bind_some]
    rcases c₂.rest_cases tokens .colon with ⟨t', us', hrest', hkind'⟩ | hne
    · have hcolon : c₂.expect total tokens .colon .colon = _ :=
        Cursor.expect_of_rest hrest' hkind' .colon
      obtain ⟨no, c₃, hno, hr''⟩ := exists_answer (h.of_calls (.no hcond heat hyes hcolon))
      rw [Cursor.rest_advance hrest'] at hr''
      rw [hrest', Parser.alternative, if_pos hkind', hcolon]
      simp only [hno, Option.bind_some]
      rw [Reply.at_cons (fun no => Expr.conditional (cond.span.merge no.span) cond yes no)
        hrest' hr'']
    · rw [Cursor.expect_of_followed hne, Parser.alternative_of_followed total hne]
      rfl
  · rw [Cursor.eat_of_followed hne, conditional_of_followed hne, Reply.at_stop]

/-- A level reads its first operand one level below, and what is read after that is a chain. -/
theorem agrees_binary (h : CalleesAgree total tokens ⟨.binary level, c⟩) :
    Call.Agrees total tokens ⟨.binary level, c⟩ := by
  show binary total tokens level c = some ((Parser.levelTo total level (c.rest tokens)).at c)
  rw [binary]
  split
  next hlevel =>
    rw [Parser.levelTo_tight total hlevel]
    exact h.of_calls (.tightest c hlevel)
  next hlevel =>
    obtain ⟨k, rfl⟩ : ∃ k, level = k + 1 := ⟨level - 1, by simp only [tightest] at hlevel; omega⟩
    obtain ⟨first, c₁, hfirst, hr⟩ := exists_answer (h.of_calls (.tighter c hlevel))
    rw [Nat.add_sub_cancel] at hr
    rw [hfirst, Parser.levelTo_succ total (by simp only [tightest] at hlevel; omega),
      Reply.at_after (fun first ts => (Parser.levelPairs total (k + 1) ts).map fun rest =>
        ((Run.single first).extendAll rest).close) hr]
    exact h.of_calls (.operators hlevel hfirst)

/-- A turn of a chain takes one operator and reads the operand behind it. -/
theorem agrees_chainTurn (h : CalleesAgree total tokens ⟨.chainTurn level run, c⟩) :
    Call.Agrees total tokens ⟨.chainTurn level run, c⟩ := by
  show ∃ t, chainTurn total tokens level run c = some t
  rw [chainTurn]
  split
  next => exact ⟨_, rfl⟩
  next op hop =>
    obtain ⟨operand, c₁, hoperand, -⟩ := exists_answer (h.of_calls (.operand hop))
    exact ⟨.again (run.extend op operand) c₁, by rw [hoperand]; rfl⟩

/-- **A chain of one level** takes up operands as long as an operator of that level follows. That it
groups them as they are grouped when all levels are read together is `levelTo_succ`. -/
theorem agrees_chain (h : CalleesAgree total tokens ⟨.chain level run, c⟩) :
    Call.Agrees total tokens ⟨.chain level run, c⟩ := by
  show chain total tokens level run c =
    some (((Parser.levelPairs total level (c.rest tokens)).map fun pairs =>
      (run.extendAll pairs).close).at c)
  rw [chain]
  cases hop : c.operator? tokens level with
  | none =>
    -- the last turn, and no pair is left either
    have hturn : chainTurn total tokens level run c = some (.done run.close c) := by
      rw [chainTurn, hop]
    rw [Cursor.operator?_eq] at hop
    rw [hturn, Parser.levelPairs_of_none total hop]
    exact congrArg some (Reply.at_stop _ _).symm
  | some op =>
    -- the operand is read by the turn, a call further down, and is that of the first pair
    obtain ⟨operand, c₁, hoperand, hr⟩ :=
      exists_answer ((h.callee (.operator level run c)).of_calls (.operand hop))
    have hturn : chainTurn total tokens level run c = some (.again (run.extend op operand) c₁) := by
      rw [chainTurn, hop, hoperand]
      rfl
    rw [Cursor.operator?_eq] at hop
    obtain ⟨t, us, hrest⟩ := Parser.exists_cons_of_operator? hop
    rw [hrest] at hop
    rw [Cursor.rest_advance hrest] at hr
    rw [hturn, hrest, Parser.levelPairs_cons total hop, Reply.map_after, Reply.map_map,
      Reply.at_after_cons (fun operand ts => (Parser.levelPairs total level ts).map fun rest =>
        (run.extendAll ((op, operand) :: rest)).close) hrest hr]
    exact h.of_calls (.nextOperator hturn)

/-- A sign is followed by the operand that it stands in front of. -/
theorem agrees_unary (h : CalleesAgree total tokens ⟨.unary, c⟩) :
    Call.Agrees total tokens ⟨.unary, c⟩ := by
  show unary total tokens c = some ((Parser.unary total (c.rest tokens)).at c)
  rw [unary]
  cases hrest : c.rest tokens with
  | nil =>
    have hnext : c.next? tokens = none := by rw [Cursor.next?_eq_head?, hrest, List.head?_nil]
    rw [hnext, Parser.unary, ← hrest]
    exact h.of_calls (.noUnary (by rw [hnext, Option.bind_none]))
  | cons t us =>
    have hnext := Cursor.next?_of_rest hrest
    rw [hnext, Parser.unary]
    -- a sign is a token of its own; without one it is a primary with its members
    cases hop : t.kind.unary? with
    | none =>
      rw [← hrest]
      simp only [hop]
      exact h.of_calls (.noUnary (by rw [hnext, Option.bind_some, hop]))
    | some op =>
      obtain ⟨operand, c₁, hoperand, hr⟩ := exists_answer (h.of_calls (.unary hnext hop))
      rw [Cursor.rest_advance hrest] at hr
      simp only [hop, hoperand, Option.bind_eq_bind, Option.bind_some]
      rw [Reply.at_cons (fun e => Expr.unary (t.span.merge e.span) op e) hrest hr]

theorem agrees_accessed (h : CalleesAgree total tokens ⟨.accessed, c⟩) :
    Call.Agrees total tokens ⟨.accessed, c⟩ := by
  show accessed total tokens c = some ((Parser.memberChain total (c.rest tokens)).at c)
  obtain ⟨first, c₁, hfirst, hr⟩ := exists_answer (h.of_calls (.primary c))
  rw [accessed, hfirst, Parser.memberChain, Reply.at_after (Parser.members total) hr]
  exact h.of_calls (.members hfirst)

/-- A turn over members takes a field or a method, if there is one. -/
theorem agrees_memberTurn (h : CalleesAgree total tokens ⟨.memberTurn receiver, c⟩) :
    Call.Agrees total tokens ⟨.memberTurn receiver, c⟩ := by
  show ∃ t, memberTurn total tokens receiver c = some t
  rw [memberTurn]
  split
  next => exact ⟨_, rfl⟩
  next dot c₁ hdot =>
    split
    next => exact ⟨_, rfl⟩
    next name c₂ hname =>
      split
      next hopen =>
        obtain ⟨args, c₃, hargs, -⟩ :=
          exists_answer (h.of_calls (.methodArguments hdot hname hopen))
        exact ⟨.again (.call (receiver.span.merge args.close) receiver name.text args.list) c₃,
          by rw [hargs]; rfl⟩
      next => exact ⟨_, rfl⟩

/-- **Members are read in turns,** and a turn that finds no point or no name is the last one. Behind
a name, a parenthesis decides between a method and a field. -/
theorem agrees_members (h : CalleesAgree total tokens ⟨.members receiver, c⟩) :
    Call.Agrees total tokens ⟨.members receiver, c⟩ := by
  show members total tokens receiver c = some ((Parser.members total receiver (c.rest tokens)).at c)
  rw [members]
  -- a member needs a point and a name, and a parenthesis makes it a method
  rcases c.rest_cases tokens .dot with ⟨dot, us, hrest, hkind⟩ | hne
  · have hdot := Cursor.eat_of_rest hrest hkind
    have hus := Cursor.rest_advance hrest
    rcases (c.advance tokens).rest_cases tokens .ident with ⟨name, vs, hrest₁, hkind₁⟩ | hne
    · have hname : (c.advance tokens).expect total tokens .ident .memberName = _ :=
        Cursor.expect_of_rest hrest₁ hkind₁ .memberName
      have hvs := Cursor.rest_advance hrest₁
      obtain rfl : us = name :: vs := hus.symm.trans hrest₁
      rcases ((c.advance tokens).advance tokens).rest_cases tokens .leftParen with
          ⟨p, ws, hrest₂, hkind₂⟩ | hne
      · -- a method, with arguments that the turn reads
        have hopen := Cursor.isAt_of_rest hrest₂ hkind₂
        obtain ⟨args, c₁, hargs, hr⟩ := exists_answer
          ((h.callee (.member receiver c)).of_calls (.methodArguments hdot hname hopen))
        have hturn : memberTurn total tokens receiver c =
            some (.again (.call (receiver.span.merge args.close) receiver name.text args.list)
              c₁) := by
          rw [memberTurn, hdot]
          simp only [hname, hopen, hargs, if_true, Option.bind_eq_bind, Option.bind_some]
        obtain rfl : vs = p :: ws := hvs.symm.trans hrest₂
        rw [Cursor.rest_advance hrest₂] at hr
        rw [hturn, hrest, Parser.members_method total hkind hkind₁ hkind₂, Reply.at_after_one hrest,
          Reply.at_after_one hrest₁, Reply.at_after_cons (fun args ts =>
            Parser.members total
              (.call (receiver.span.merge args.close) receiver name.text args.list) ts) hrest₂ hr]
        exact h.of_calls (.nextMember hturn)
      · -- a field
        have hturn : memberTurn total tokens receiver c = some (.again
            (.field (receiver.span.merge name.span) receiver name.text)
              ((c.advance tokens).advance tokens)) := by
          rw [memberTurn, hdot]
          simp only [hname, Cursor.isAt_of_followed hne, Bool.false_eq_true, if_false]
        rw [hvs] at hne
        rw [hturn, hrest, Parser.members_field total hkind hkind₁ hne, Reply.at_after_one hrest,
          Reply.at_after_one hrest₁, ← hvs]
        exact h.of_calls (.nextMember hturn)
    · -- a point without a name, which ends the loop
      have hturn : memberTurn total tokens receiver c =
          some (.done receiver ((c.advance tokens).record total tokens .memberName)) := by
        rw [memberTurn, hdot]
        simp only [Cursor.expect_of_followed hne]
      rw [hus] at hne
      rw [hturn, hrest, Parser.members_without_name total hkind hne,
        Reply.at_after_one hrest, ← hus]
      rfl
  · have hturn : memberTurn total tokens receiver c = some (.done receiver c) := by
      rw [memberTurn, Cursor.eat_of_followed hne]
    rw [hturn, members_of_followed hne, Reply.at_stop]
    rfl

/-- Arguments are closed at once or read in turns. -/
theorem agrees_arguments (h : CalleesAgree total tokens ⟨.arguments, c⟩) :
    Call.Agrees total tokens ⟨.arguments, c⟩ := by
  show arguments total tokens c =
    some ((Parser.arguments total ((c.advance tokens).rest tokens)).at (c.advance tokens))
  rw [arguments]
  rcases (c.advance tokens).rest_cases tokens .rightParen with ⟨t, us, hrest, hkind⟩ | hne
  · rw [Cursor.eat_of_rest hrest hkind, hrest, Parser.arguments, if_pos hkind, Reply.at_one hrest]
  · rw [Cursor.eat_of_followed hne, Parser.arguments_of_followed total hne]
    exact h.of_calls (.argumentList (Cursor.isAt_of_followed hne))

theorem agrees_argumentTurn (h : CalleesAgree total tokens ⟨.argumentTurn args, c⟩) :
    Call.Agrees total tokens ⟨.argumentTurn args, c⟩ := by
  obtain ⟨arg, c₁, harg, -⟩ := exists_answer (h.of_calls (.argumentExpression args c))
  exact ⟨afterArgument total tokens args arg c₁, by rw [argumentTurn, harg]; rfl⟩

/-- **Arguments are read in turns:** behind each of them a comma goes on, and anything else ends the
list, with an error unless it is the parenthesis. -/
theorem agrees_argumentsFrom (h : CalleesAgree total tokens ⟨.argumentsFrom args, c⟩) :
    Call.Agrees total tokens ⟨.argumentsFrom args, c⟩ := by
  show argumentsFrom total tokens args c =
    some (((Parser.someArguments total (c.rest tokens)).map (behind args)).at c)
  obtain ⟨arg, c₁, harg, hr⟩ :=
    exists_answer ((h.callee (.argument args c)).of_calls (.argumentExpression args c))
  have hturn : argumentTurn total tokens args c =
      some (afterArgument total tokens args arg c₁) := by
    rw [argumentTurn, harg]
    rfl
  rw [argumentsFrom, Parser.someArguments, Reply.map_after,
    Reply.at_after (fun arg ts => (Parser.argumentsAfter total arg ts).map (behind args)) hr]
  unfold afterArgument at hturn
  rcases c₁.rest_cases tokens .comma with ⟨t, us, hrest, hkind⟩ | hcomma
  · -- another argument follows, and what is read so far is kept in front of it
    rw [Cursor.eat_of_rest hrest hkind] at hturn
    have hbehind (r : Reply Arguments) :
        (⟨⟨arg :: r.value.list, r.value.close⟩, 1 + r.used, r.errors⟩ : Reply Arguments).map
          (behind args) = (r.map (behind (args ++ [arg]))).after 1 [] := by
      simp [Reply.map, Reply.after, behind]
    rw [hturn, hrest, Parser.argumentsAfter, if_pos hkind]
    simp only [hbehind, Reply.at_after_one hrest]
    rw [← Cursor.rest_advance hrest]
    exact h.of_calls (.nextArgument hturn)
  · rw [Cursor.eat_of_followed hcomma] at hturn
    -- the list ends here, closed or not
    rcases c₁.rest_cases tokens .rightParen with ⟨t, us, hrest, hkind⟩ | hne
    · simp only [Cursor.expect_of_rest hrest hkind] at hturn
      rw [hrest] at hcomma
      rw [hturn, hrest, Parser.argumentsAfter, if_neg (hcomma t rfl), if_pos hkind]
      exact congrArg some (Reply.at_one hrest _).symm
    · simp only [Cursor.expect_of_followed hne] at hturn
      rw [hturn, Parser.argumentsAfter_of_followed total hcomma hne]
      rfl

/-- **An operand is told by its first token:** a literal, a name with or without arguments, a
parenthesis, or nothing that an operand begins with. -/
theorem agrees_primary (h : CalleesAgree total tokens ⟨.primary, c⟩) :
    Call.Agrees total tokens ⟨.primary, c⟩ := by
  show primary total tokens c = some ((Parser.primary total (c.rest tokens)).at c)
  rw [primary]
  cases hrest : c.rest tokens with
  | nil =>
    have hnext : c.next? tokens = none := by rw [Cursor.next?_eq_head?, hrest, List.head?_nil]
    rw [hnext, Parser.primary, ← hrest]
    rfl
  | cons t us =>
    have hnext := Cursor.next?_of_rest hrest
    have hus := Cursor.rest_advance hrest
    rw [hnext]
    -- Literals are told by the kind of the token before names and parentheses are looked at, here
    -- as in the reader without positions.
    cases hliteral : t.kind.literalKind? with
    | some kind =>
      unfold Parser.primary
      simp only [hliteral]
      rw [Reply.at_one hrest]
    | none =>
      simp only [hliteral]
      split
      next hkind =>
        rcases (c.advance tokens).rest_cases tokens .leftParen with ⟨p, vs, hrest', hkind'⟩ | hne
        · have hopen := Cursor.isAt_of_rest hrest' hkind'
          obtain ⟨args, c₁, hargs, hr⟩ :=
            exists_answer (h.of_calls (.callArguments hnext hkind hopen))
          rw [Cursor.rest_advance hrest'] at hr
          obtain rfl : us = p :: vs := hus.symm.trans hrest'
          rw [Parser.primary_call total hkind hkind', Reply.at_after_one hrest,
            Reply.at_cons (fun args : Arguments =>
              Expr.call (t.span.merge args.close) .absent t.text args.list) hrest' hr]
          simp only [hopen, if_true, hargs, Option.bind_eq_bind, Option.bind_some]
        · rw [Cursor.isAt_of_followed hne]
          rw [hus] at hne
          rw [Parser.primary_ident total hkind hne, Reply.at_one hrest]
          rfl
      next hident =>
        unfold Parser.primary
        rw [hliteral, if_neg hident]
        split
        next hkind =>
          obtain ⟨inner, c₁, hinner, hr⟩ := exists_answer (h.of_calls (.inParentheses hnext hkind))
          rw [hus] at hr
          rw [hinner, Reply.at_after_cons (Parser.closeParen total t.span) hrest hr]
          exact congrArg some (closeParen_eq total tokens t.span inner c₁)
        -- no operand begins here: what stands for it takes no token
        next =>
          rw [← hrest]
          rfl

variable (total tokens) in

/-- **Every call agrees.** -/
theorem agrees (call : Call) : call.Agrees total tokens := by
  -- not only the calls it makes itself: an answer of a loop depends on the calls that
  -- its turns make
  refine (wellFounded_calls total tokens).transGen.induction call fun call h => ?_
  obtain ⟨procedure, c⟩ := call
  cases procedure with
  | expression =>
    show expression total tokens c = some ((Parser.expression total (c.rest tokens)).at c)
    rw [expression]
    exact CalleesAgree.of_calls h (.expression c)
  | conditional => exact agrees_conditional h
  | binary level => exact agrees_binary h
  | chain level run => exact agrees_chain h
  | chainTurn level run => exact agrees_chainTurn h
  | unary => exact agrees_unary h
  | accessed => exact agrees_accessed h
  | members receiver => exact agrees_members h
  | memberTurn receiver => exact agrees_memberTurn h
  | arguments => exact agrees_arguments h
  | argumentsFrom args => exact agrees_argumentsFrom h
  | argumentTurn args => exact agrees_argumentTurn h
  | primary => exact agrees_primary h

end Agreement

/-! ### Reading ends -/

/-- **Where a call leaves the cursor,** if it comes to an end. -/
def Call.outcome : Call → Option Cursor
  | ⟨.expression, c⟩ => (expression total tokens c).map Prod.snd
  | ⟨.conditional, c⟩ => (conditional total tokens c).map Prod.snd
  | ⟨.binary level, c⟩ => (binary total tokens level c).map Prod.snd
  | ⟨.chain level run, c⟩ => (chain total tokens level run c).map Prod.snd
  | ⟨.chainTurn level run, c⟩ => (chainTurn total tokens level run c).map Turn.cursor
  | ⟨.unary, c⟩ => (unary total tokens c).map Prod.snd
  | ⟨.accessed, c⟩ => (accessed total tokens c).map Prod.snd
  | ⟨.members receiver, c⟩ => (members total tokens receiver c).map Prod.snd
  | ⟨.memberTurn receiver, c⟩ => (memberTurn total tokens receiver c).map Turn.cursor
  | ⟨.arguments, c⟩ => (arguments total tokens c).map Prod.snd
  | ⟨.argumentsFrom args, c⟩ => (argumentsFrom total tokens args c).map Prod.snd
  | ⟨.argumentTurn args, c⟩ => (argumentTurn total tokens args c).map Turn.cursor
  | ⟨.primary, c⟩ => (primary total tokens c).map Prod.snd

variable {total tokens} in

/-- A call that agrees comes to an end. -/
theorem Call.Agrees.exists_outcome {call : Call} (h : call.Agrees total tokens) :
    ∃ c', call.outcome total tokens = some c' := by
  obtain ⟨procedure, c⟩ := call
  cases procedure with
  | chainTurn level run | memberTurn receiver | argumentTurn args =>
    obtain ⟨t, ht⟩ := h
    exact ⟨t.cursor, Option.map_eq_some_iff.mpr ⟨t, ht, rfl⟩⟩
  | _ => exact ⟨_, Option.map_eq_some_iff.mpr ⟨_, h, rfl⟩⟩

variable {total tokens} in

/-- Where a call comes to an end, it has gone forward. -/
theorem forward_of_outcome {call : Call} {c' : Cursor} (h : call.outcome total tokens = some c') :
    call.cursor.Forward tokens c' := by
  -- what every procedure keeps to is known for all of them at once
  obtain ⟨hexpression, hconditional, hbinary, hchain, hchainTurn, hunary, haccessed, hmembers,
    hmemberTurn, harguments, hargumentsFrom, hargumentTurn, hprimary⟩ :=
    partial_correctness total tokens
  obtain ⟨procedure, c⟩ := call
  cases procedure <;> obtain ⟨answer, hanswer, rfl⟩ := Option.map_eq_some_iff.mp h
  case expression => exact (hexpression _ _ hanswer).forward
  case conditional => exact (hconditional _ _ hanswer).forward
  case binary => exact (hbinary _ _ _ hanswer).forward
  case chain => exact (hchain _ _ _ _ hanswer).forward
  case chainTurn => exact (hchainTurn _ _ _ _ hanswer).forward
  case unary => exact (hunary _ _ hanswer).forward
  case accessed => exact (haccessed _ _ hanswer).forward
  case members => exact (hmembers _ _ _ hanswer).forward
  case memberTurn => exact (hmemberTurn _ _ _ hanswer).forward
  case arguments => exact harguments _ _ hanswer
  case argumentsFrom => exact hargumentsFrom _ _ _ hanswer
  case argumentTurn => exact (hargumentTurn _ _ _ hanswer).forward
  case primary => exact (hprimary _ _ hanswer).forward

/-- **Reading comes to an end,** whatever the tokens. Every call has an answer, and neither the
answer nor a call made on the way takes the cursor back or past the end; each of these calls lies
below in the measure. A turn over operators or members passes a token over, unless none of them
stands there and the loop is left. So does a turn over arguments, unless an argument is missing
and so is what should close the call; this ends the loop. A primary is an error exactly if it
passes no token over, and then one error is recorded. In all, what is read is what
`Parser.expression` reads. -/
theorem reading_ends :
    (∀ call : Call, ∃ c', call.outcome total tokens = some c' ∧ call.cursor.Forward tokens c') ∧
    WellFounded Below ∧
    (∀ call call', Calls total tokens call call' →
      call.cursor.Forward tokens call'.cursor ∧
      Below (call'.measure tokens) (call.measure tokens)) ∧
    (∀ level run c, ∃ t, chainTurn total tokens level run c = some t ∧
      TurnsOn tokens c (fun e c' => e = run.close ∧ c' = c ∧ c.operator? tokens level = none) t) ∧
    (∀ receiver c, ∃ t, memberTurn total tokens receiver c = some t ∧
      TurnsOn tokens c
        (fun e c' => e = receiver ∧ (c'.pos = c.pos → c' = c ∧ c.isAt tokens .dot = false)) t) ∧
    (∀ args c, ∃ t, argumentTurn total tokens args c = some t ∧
      TurnsOn tokens c (EndsArguments total tokens args c) t) ∧
    (∀ c, ∃ e c', primary total tokens c = some (e, c') ∧ (c'.pos = c.pos ↔ ∃ s, e = .error s) ∧
      (c'.pos = c.pos → e = c.missing total tokens ∧ c' = c.record total tokens .expression)) ∧
    ∀ c, expression total tokens c = some ((Parser.expression total (c.rest tokens)).at c) := by
  obtain ⟨-, -, -, -, hchain, -, -, -, hmember, -, -, hargument, hprimary⟩ :=
    partial_correctness total tokens
  -- That there is an answer comes from agreeing with the reader without positions; what a turn does
  -- to the position, from partial correctness.
  refine ⟨fun call => ?_, wellFounded_below, fun call call' hcall => ⟨hcall.forward, hcall.below⟩,
    fun level run c => ?_, fun receiver c => ?_, fun args c => ?_, fun c => ?_,
    fun c => agrees total tokens ⟨.expression, c⟩⟩
  · obtain ⟨c', hc'⟩ := (agrees total tokens call).exists_outcome
    exact ⟨c', hc', forward_of_outcome hc'⟩
  · obtain ⟨t, ht⟩ := agrees total tokens ⟨.chainTurn level run, c⟩
    exact ⟨t, ht, hchain _ _ _ _ ht⟩
  · obtain ⟨t, ht⟩ := agrees total tokens ⟨.memberTurn receiver, c⟩
    exact ⟨t, ht, hmember _ _ _ ht⟩
  · obtain ⟨t, ht⟩ := agrees total tokens ⟨.argumentTurn args, c⟩
    exact ⟨t, ht, hargument _ _ _ ht⟩
  · -- only an operand that is missing leaves the position as it was
    have hanswer : primary total tokens c = some ((Parser.primary total (c.rest tokens)).at c) :=
      agrees total tokens ⟨.primary, c⟩
    have hreads := hprimary _ _ hanswer
    refine ⟨_, _, hanswer, ⟨fun hstill => ?_, fun ⟨s, hs⟩ => ?_⟩,
      fun hstill => Prod.mk.inj (hreads.still hstill)⟩
    · exact ⟨_, (Prod.mk.inj (hreads.still hstill)).1⟩
    · exact congrArg (c.pos + ·) (Parser.used_of_value_eq_error total hs)

/-- The tokens of `f(`. -/
def openCall : List Token := [⟨.ident, ⟨0, 1⟩, "f"⟩, ⟨.leftParen, ⟨1, 2⟩, "("⟩]

/-- From the name to the arguments it goes up in the grammar, and one token fewer is left. -/
theorem reading_ends_open_call :
    Calls 2 openCall ⟨.primary, ⟨0, []⟩⟩ ⟨.arguments, ⟨1, []⟩⟩ ∧
    Below (Call.measure openCall ⟨.arguments, ⟨1, []⟩⟩)
      (Call.measure openCall ⟨.primary, ⟨0, []⟩⟩) := by
  obtain ⟨-, -, hbelow, -⟩ := reading_ends 2 openCall
  have hcall : Calls 2 openCall ⟨.primary, ⟨0, []⟩⟩ ⟨.arguments, ⟨1, []⟩⟩ :=
    .callArguments rfl rfl (by decide)
  exact ⟨hcall, (hbelow _ _ hcall).2⟩

/-- Where no unary operator stands, it is a dozen calls from an expression down to a primary. -/
theorem transGen_primary {c : Cursor} (hnone : (c.next? tokens).bind (·.kind.unary?) = none) :
    Relation.TransGen (Calls total tokens) ⟨.expression, c⟩ ⟨.primary, c⟩ := by
  have hlevels : ∀ n, Relation.TransGen (Calls total tokens) ⟨.binary (2 + n), c⟩ ⟨.unary, c⟩ :=
    fun n => by
    induction n with
    | zero => exact .single (.tightest c (by decide))
    | succ n ih => exact .head (.tighter c (by simp only [tightest]; omega)) ih
  exact .head (.expression c)
    (.head (.condition c) (((hlevels 10).tail (.noUnary hnone)).tail (.primary c)))

/-- **A turn that passes no token over:** in `f(` the argument is missing, and so is what should
close the call. -/
theorem turn_without_token :
    (lex "f(").tokens = openCall ∧
    Relation.TransGen (Calls 2 openCall) ⟨.expression, ⟨0, []⟩⟩ ⟨.argumentTurn [], ⟨2, []⟩⟩ ∧
    argumentTurn 2 openCall [] ⟨2, []⟩ = some (.done ⟨[.error ⟨2, 2⟩], ⟨2, 2⟩⟩
      ⟨2, [.unexpectedEnd .expression ⟨2, 2⟩, .unexpectedEnd .commaOrClosingParen ⟨2, 2⟩]⟩) := by
  refine ⟨by decide +kernel, ?_, ?_⟩
  · have hprimary : Relation.TransGen (Calls 2 openCall) ⟨.expression, ⟨0, []⟩⟩
        ⟨.primary, ⟨0, []⟩⟩ :=
      transGen_primary 2 openCall (by decide)
    exact (((hprimary.tail (.callArguments rfl rfl (by decide))).tail
      (.argumentList (by decide))).tail
      (.argument [] ⟨2, []⟩))
  · have harg : expression 2 openCall ⟨2, []⟩ = some ((Parser.expression 2 []).at ⟨2, []⟩) :=
      agrees 2 openCall ⟨.expression, ⟨2, []⟩⟩
    have hread : (Parser.expression 2 []).at ⟨2, []⟩ =
        (.error ⟨2, 2⟩, ⟨2, [.unexpectedEnd .expression ⟨2, 2⟩]⟩) := by decide +kernel
    rw [argumentTurn, harg, hread]
    rfl

end Descent

end OperandOrder
