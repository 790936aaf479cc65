import OperandOrder.Parser.Flat
import OperandOrder.Token.Lexer

/-!
# Reading an expression

The grammar, loosest first: a conditional `b ? e : e`; operands joined by binary operators, grouped
by `Flat.group`; unary operators; members `.name` and `.name(args)` after a primary; and primaries,
which are literals, names, calls and parentheses.

Reading never fails. Where something expected is not there an error is recorded, nothing is passed
over, and an `Expr.error` stands in for an operand.

A reading function is given the tokens that are left and says *how many* of them it takes
(`Reply.used`); what comes next is read from the tokens without these. So no function can give
tokens back, and each of them goes on only below a token that it has seen itself: the number of
tokens left, and then the place of the function in the grammar, is why reading ends.

`parse` reads a whole source text: `Parsed.expr` is its tree and `Parsed.errors` are the errors of
cutting it into tokens and of reading them, in the order of the text.
-/

namespace OperandOrder

/-- **What a reading function hands back:** a value, the number of tokens it takes, and the errors
met on the way. -/
structure Reply (α : Type) where
  value : α
  used : Nat
  errors : List ParseError

/-- A reply to tokens that come after `n` others, which gave `earlier` errors. -/
def Reply.after {α : Type} (n : Nat) (earlier : List ParseError) (r : Reply α) : Reply α :=
  ⟨r.value, n + r.used, earlier ++ r.errors⟩

/-- The arguments of a call, with the span of what closes them. -/
structure Arguments where
  list : List Expr
  close : Span

namespace Parser

/-- Where the next token stands; the end of the source, `total` bytes long, when there is none. -/
def here (total : Nat) : List Token → Span
  | [] => .point total
  | t :: _ => t.span

/-- The error for what is next not being what was expected. -/
def expected (total : Nat) (what : Expectation) : List Token → ParseError
  | [] => .unexpectedEnd what (.point total)
  | t :: _ => .unexpectedToken what t.text t.span

/-- What stands in for an operand that is not there. -/
def missing (total : Nat) (ts : List Token) : Expr := .error (.point (here total ts).start)

/-- A conditional without its colon. -/
def withoutColon (total : Nat) (cond yes : Expr) (ts : List Token) : Reply Expr :=
  let no := missing total ts
  ⟨.conditional (cond.span.merge no.span) cond yes no, 0, [expected total .colon ts]⟩

/-- The end of a call behind its last argument, which closes the call if nothing else does. -/
def withoutClose (total : Nat) (arg : Expr) (ts : List Token) : Reply Arguments :=
  ⟨⟨[arg], arg.span⟩, 0, [expected total .commaOrClosingParen ts]⟩

/-- The end of a parenthesis behind its content, which closes it if nothing else does. -/
def closeParen (total : Nat) (start : Span) (inner : Expr) (ts : List Token) : Reply Expr :=
  match ts with
  | [] => ⟨.paren (start.merge inner.span) inner, 0, [expected total .closingParen ts]⟩
  | t :: _ =>
    if t.kind = .rightParen then ⟨.paren (start.merge t.span) inner, 1, []⟩
    else ⟨.paren (start.merge inner.span) inner, 0, [expected total .closingParen ts]⟩

/-- Dropping tokens does not lengthen what is left: a step down that goes on at `us` stays one when
it goes on further behind. -/
theorem measure_drop_lt (ts us : List Token) (n k j : Nat)
    (h : 8 * us.length + k < 8 * ts.length + j) :
    8 * (us.drop n).length + k < 8 * ts.length + j := by
  simp only [List.length_drop]
  omega

-- The measure is eight times the number of tokens that are left, plus a rank that falls from one
-- function to the next as long as no token is taken.
mutual

/-- **An expression:** operands and operators, and a conditional if a question mark follows. -/
def expression (total : Nat) (ts : List Token) : Reply Expr :=
  let head := operands total ts
  (conditional total head.value.group (ts.drop head.used)).after head.used head.errors
termination_by 8 * ts.length + 4
decreasing_by
  · omega
  · exact measure_drop_lt ts ts _ 0 4 (by omega)

/-- What may follow a condition. -/
def conditional (total : Nat) (cond : Expr) (ts : List Token) : Reply Expr :=
  match ts with
  | [] => ⟨cond, 0, []⟩
  | t :: rest =>
    if t.kind = .question then
      let yes := expression total rest
      (alternative total cond yes.value (rest.drop yes.used)).after (1 + yes.used) yes.errors
    else ⟨cond, 0, []⟩
termination_by 8 * ts.length
decreasing_by
  · simp only [List.length_cons]; omega
  · exact measure_drop_lt (t :: rest) rest _ 0 0 (by simp only [List.length_cons]; omega)

/-- The second branch of a conditional, from its colon on. -/
def alternative (total : Nat) (cond yes : Expr) (ts : List Token) : Reply Expr :=
  match ts with
  | [] => withoutColon total cond yes []
  | t :: rest =>
    if t.kind = .colon then
      let no := expression total rest
      ⟨.conditional (cond.span.merge no.value.span) cond yes no.value, 1 + no.used, no.errors⟩
    else withoutColon total cond yes (t :: rest)
termination_by 8 * ts.length

/-- Operands with binary operators between them. -/
def operands (total : Nat) (ts : List Token) : Reply Flat :=
  let first := unary total ts
  (operandsAfter total first.value (ts.drop first.used)).after first.used first.errors
termination_by 8 * ts.length + 3
decreasing_by
  · omega
  · exact measure_drop_lt ts ts _ 0 3 (by omega)

/-- What may follow an operand. -/
def operandsAfter (total : Nat) (first : Expr) (ts : List Token) : Reply Flat :=
  match ts with
  | [] => ⟨⟨first, []⟩, 0, []⟩
  | t :: rest =>
    match t.kind.binary? with
    | none => ⟨⟨first, []⟩, 0, []⟩
    | some op =>
      let more := operands total rest
      ⟨⟨first, (op, more.value.head) :: more.value.tail⟩, 1 + more.used, more.errors⟩
termination_by 8 * ts.length

/-- Unary operators before a primary with its members. -/
def unary (total : Nat) (ts : List Token) : Reply Expr :=
  match ts with
  | [] => memberChain total []
  | t :: rest =>
    match t.kind.unary? with
    | none => memberChain total (t :: rest)
    | some op =>
      let operand := unary total rest
      ⟨.unary (t.span.merge operand.value.span) op operand.value, 1 + operand.used, operand.errors⟩
termination_by 8 * ts.length + 2

/-- A primary with its members. -/
def memberChain (total : Nat) (ts : List Token) : Reply Expr :=
  let first := primary total ts
  (members total first.value (ts.drop first.used)).after first.used first.errors
termination_by 8 * ts.length + 1
decreasing_by
  · omega
  · exact measure_drop_lt ts ts _ 0 1 (by omega)

/-- The members `.name` and `.name(args)` that may follow `receiver`. -/
def members (total : Nat) (receiver : Expr) (ts : List Token) : Reply Expr :=
  match ts with
  | [] => ⟨receiver, 0, []⟩
  | dot :: rest =>
    if dot.kind = .dot then
      match rest with
      -- a point without a name is passed over, and the receiver stands alone
      | [] => ⟨receiver, 1, [expected total .memberName []]⟩
      | name :: rest =>
        if name.kind = .ident then
          match rest with
          | [] => ⟨.field (receiver.span.merge name.span) receiver name.text, 2, []⟩
          | t :: inside =>
            if t.kind = .leftParen then
              let args := arguments total inside
              let call := Expr.call (receiver.span.merge args.value.close) receiver name.text
                args.value.list
              (members total call (inside.drop args.used)).after (3 + args.used) args.errors
            else
              let field := Expr.field (receiver.span.merge name.span) receiver name.text
              (members total field (t :: inside)).after 2 []
        else ⟨receiver, 1, [expected total .memberName (name :: rest)]⟩
    else ⟨receiver, 0, []⟩
termination_by 8 * ts.length
decreasing_by
  · simp only [List.length_cons]; omega
  · exact measure_drop_lt (dot :: name :: t :: inside) inside _ 0 0
      (by simp only [List.length_cons]; omega)
  · simp only [List.length_cons]; omega

/-- The arguments of a call, its opening parenthesis passed over. -/
def arguments (total : Nat) (ts : List Token) : Reply Arguments :=
  match ts with
  | [] => someArguments total []
  | t :: rest =>
    if t.kind = .rightParen then ⟨⟨[], t.span⟩, 1, []⟩ else someArguments total (t :: rest)
termination_by 8 * ts.length + 6

/-- At least one argument. -/
def someArguments (total : Nat) (ts : List Token) : Reply Arguments :=
  let arg := expression total ts
  (argumentsAfter total arg.value (ts.drop arg.used)).after arg.used arg.errors
termination_by 8 * ts.length + 5
decreasing_by
  · omega
  · exact measure_drop_lt ts ts _ 0 5 (by omega)

/-- What may follow an argument. -/
def argumentsAfter (total : Nat) (arg : Expr) (ts : List Token) : Reply Arguments :=
  match ts with
  | [] => withoutClose total arg []
  | t :: rest =>
    if t.kind = .comma then
      let more := someArguments total rest
      ⟨⟨arg :: more.value.list, more.value.close⟩, 1 + more.used, more.errors⟩
    else if t.kind = .rightParen then ⟨⟨[arg], t.span⟩, 1, []⟩
    else withoutClose total arg (t :: rest)
termination_by 8 * ts.length

/-- A literal, a name, a call or a parenthesis. -/
def primary (total : Nat) (ts : List Token) : Reply Expr :=
  match ts with
  | [] => ⟨missing total [], 0, [expected total .expression []]⟩
  | t :: rest =>
    match t.kind.literalKind? with
    | some kind => ⟨.literal t.span kind t.text, 1, []⟩
    | none =>
      if t.kind = .ident then
        match rest with
        | [] => ⟨.ident t.span t.text, 1, []⟩
        | p :: inside =>
          if p.kind = .leftParen then
            let args := arguments total inside
            ⟨.call (t.span.merge args.value.close) .absent t.text args.value.list, 2 + args.used,
              args.errors⟩
          else ⟨.ident t.span t.text, 1, []⟩
      else if t.kind = .leftParen then
        let inner := expression total rest
        (closeParen total t.span inner.value (rest.drop inner.used)).after (1 + inner.used)
          inner.errors
      -- the token is left to whatever encloses the missing expression
      else ⟨missing total (t :: rest), 0, [expected total .expression (t :: rest)]⟩
termination_by 8 * ts.length

end

/-- The error for tokens that are left over. -/
def leftover (total : Nat) : List Token → List ParseError
  | [] => []
  | t :: rest => [expected total .endOfExpression (t :: rest)]

end Parser

/-- **What reading a source text gives.** -/
structure Parsed where
  expr : Expr
  errors : List ParseError

/-- **Reads a source text as one expression.** -/
def parse (source : String) : Parsed :=
  let lexed := lex source
  -- no offset is beyond the limit, so that of the end is not either
  let total := min (Text.width source.toList) Span.limit
  let reply := Parser.expression total lexed.tokens
  let errors := lexed.errors ++
    (reply.errors ++ Parser.leftover total (lexed.tokens.drop reply.used))
  ⟨reply.value, errors.mergeSort fun a b => a.span.start ≤ b.span.start⟩

end OperandOrder
