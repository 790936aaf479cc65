import OperandOrder.Parser

/-!
# Reading by recursive descent

The grammar of `OperandOrder.Parser` as procedures that call each other and share a cursor. Each
level of binary operators is a call of its own, and what may be repeated is read in a loop: operands
of one level, members, and arguments.

Nothing here says that reading ends. A procedure may pass a token over or leave it where it is; on
an error it leaves it, so that a dozen calls may be made one inside the other at one and the same
token. An answer is therefore optional: `none` stands for a call that does not come to an end.

`Cursor.expression` is the whole grammar. It reads what `Parser.expression` reads, which takes all
operands first and groups them afterwards.
-/

namespace OperandOrder

/-- **Where reading stands:** the number of tokens that have been passed over, and the errors
recorded so far. -/
structure Cursor where
  pos : Nat
  errors : List ParseError
  deriving DecidableEq, Repr

namespace Cursor

variable (total : Nat) (tokens : List Token) (c : Cursor)

/-- The tokens that are left. -/
def rest : List Token := tokens.drop c.pos

/-- The token at the cursor, if any is left. -/
def next? : Option Token := tokens[c.pos]?

/-- Whether the token at the cursor is of a kind. -/
def isAt (kind : TokenKind) : Bool := (c.next? tokens).any (·.kind == kind)

/-- Passes a token over. There is nothing to pass over at the end. -/
def advance : Cursor := if c.pos < tokens.length then ⟨c.pos + 1, c.errors⟩ else c

/-- Records that something else was expected at the cursor. -/
def record (what : Expectation) : Cursor :=
  ⟨c.pos, c.errors ++ [Parser.expected total what (c.rest tokens)]⟩

/-- Passes a token of a kind over, if there is one at the cursor. -/
def eat (kind : TokenKind) : Option Token × Cursor :=
  if c.isAt tokens kind then (c.next? tokens, c.advance tokens) else (none, c)

/-- Passes a token of a kind over, or records that it was expected. -/
def expect (kind : TokenKind) (what : Expectation) : Option Token × Cursor :=
  match c.eat tokens kind with
  | (some t, c) => (some t, c)
  | (none, c) => (none, c.record total tokens what)

/-- The binary operator at the cursor, if it is one of a level. -/
def operator? (level : Nat) : Option BinaryOp :=
  ((c.next? tokens).bind (·.kind.binary?)).filter (·.level == level)

/-- What stands in for an operand that is not there. -/
def missing : Expr := Parser.missing total (c.rest tokens)

end Cursor

/-- **What a turn of a loop leads to:** another turn, or the end of the loop. -/
inductive Turn (σ α : Type) where
  | again (state : σ) (c : Cursor)
  | done (result : α) (c : Cursor)
  deriving DecidableEq, Repr

namespace Cursor

/-- The end of a parenthesis behind its content, which closes it if nothing else does. -/
def closeParen (total : Nat) (tokens : List Token) (start : Span) (inner : Expr) (c : Cursor) :
    Expr × Cursor :=
  match c.expect total tokens .rightParen .closingParen with
  | (some close, c) => (.paren (start.merge close.span) inner, c)
  | (none, c) => (.paren (start.merge inner.span) inner, c)

/-- What follows an argument: a comma, or the end of the call, which the argument closes if nothing
else does. -/
def afterArgument (total : Nat) (tokens : List Token) (args : List Expr) (arg : Expr) (c : Cursor) :
    Turn (List Expr) Arguments :=
  match c.eat tokens .comma with
  | (some _, c) => .again (args ++ [arg]) c
  | (none, c) =>
    match c.expect total tokens .rightParen .commaOrClosingParen with
    | (some close, c) => .done ⟨args ++ [arg], close.span⟩ c
    | (none, c) => .done ⟨args ++ [arg], arg.span⟩ c

/-- The loosest level of binary operators. -/
def loosest : Nat := 12

/-- The tightest level of binary operators. -/
def tightest : Nat := 3

mutual

/-- An expression. -/
def expression (total : Nat) (tokens : List Token) (c : Cursor) : Option (Expr × Cursor) :=
  c |>.conditional total tokens
partial_fixpoint

/-- `cond ? yes : no` -/
def conditional (total : Nat) (tokens : List Token) (c : Cursor) : Option (Expr × Cursor) := do
  let (cond, c) ← c |>.binary total tokens loosest
  match c.eat tokens .question with
  | (none, c) => some (cond, c)
  | (some _, c) =>
    let (yes, c) ← c |>.expression total tokens
    match c.expect total tokens .colon .colon with
    | (some _, c) =>
      let (no, c) ← c |>.expression total tokens
      some (.conditional (cond.span.merge no.span) cond yes no, c)
    | (none, c) =>
      let no := c.missing total tokens
      some (.conditional (cond.span.merge no.span) cond yes no, c)
partial_fixpoint

/-- Operands with operators of a level, or of a tighter one, between them. -/
def binary (total : Nat) (tokens : List Token) (level : Nat) (c : Cursor) :
    Option (Expr × Cursor) :=
  if level < tightest then c |>.unary total tokens
  else do
    let (first, c) ← c |>.binary total tokens (level - 1)
    c |>.chain total tokens level (.single first)
partial_fixpoint

/-- The loop over the operators of a level. -/
def chain (total : Nat) (tokens : List Token) (level : Nat) (run : Run) (c : Cursor) :
    Option (Expr × Cursor) := do
  match ← c |>.chainTurn total tokens level run with
  | .again run c => c |>.chain total tokens level run
  | .done e c => some (e, c)
partial_fixpoint

/-- One operator of a level with the operand behind it. -/
def chainTurn (total : Nat) (tokens : List Token) (level : Nat) (run : Run) (c : Cursor) :
    Option (Turn Run Expr) :=
  match c.operator? tokens level with
  | none => some (.done run.close c)
  | some op => do
    let (operand, c) ← c.advance tokens |>.binary total tokens (level - 1)
    some (.again (run.extend op operand) c)
partial_fixpoint

/-- Unary operators before a primary with its members. -/
def unary (total : Nat) (tokens : List Token) (c : Cursor) : Option (Expr × Cursor) :=
  match c.next? tokens with
  | none => c |>.accessed total tokens
  | some t =>
    match t.kind.unary? with
    | none => c |>.accessed total tokens
    | some op => do
      let (operand, c) ← c.advance tokens |>.unary total tokens
      some (.unary (t.span.merge operand.span) op operand, c)
partial_fixpoint

/-- A primary with its members. -/
def accessed (total : Nat) (tokens : List Token) (c : Cursor) : Option (Expr × Cursor) := do
  let (first, c) ← c |>.primary total tokens
  c |>.members total tokens first
partial_fixpoint

/-- The loop over members. -/
def members (total : Nat) (tokens : List Token) (receiver : Expr) (c : Cursor) :
    Option (Expr × Cursor) := do
  match ← c |>.memberTurn total tokens receiver with
  | .again e c => c |>.members total tokens e
  | .done e c => some (e, c)
partial_fixpoint

/-- One member, `.name` or `.name(args)`. A point without a name is passed over. -/
def memberTurn (total : Nat) (tokens : List Token) (receiver : Expr) (c : Cursor) :
    Option (Turn Expr Expr) :=
  match c.eat tokens .dot with
  | (none, c) => some (.done receiver c)
  | (some _, c) =>
    match c.expect total tokens .ident .memberName with
    | (none, c) => some (.done receiver c)
    | (some name, c) =>
      if c.isAt tokens .leftParen then do
        let (args, c) ← c |>.arguments total tokens
        some (.again (.call (receiver.span.merge args.close) receiver name.text args.list) c)
      else some (.again (.field (receiver.span.merge name.span) receiver name.text) c)
partial_fixpoint

/-- The arguments of a call, from the opening parenthesis on. -/
def arguments (total : Nat) (tokens : List Token) (c : Cursor) : Option (Arguments × Cursor) :=
  match (c.advance tokens).eat tokens .rightParen with
  | (some close, c) => some (⟨[], close.span⟩, c)
  | (none, c) => c |>.argumentsFrom total tokens []
partial_fixpoint

/-- The loop over arguments. -/
def argumentsFrom (total : Nat) (tokens : List Token) (args : List Expr) (c : Cursor) :
    Option (Arguments × Cursor) := do
  match ← c |>.argumentTurn total tokens args with
  | .again args c => c |>.argumentsFrom total tokens args
  | .done args c => some (args, c)
partial_fixpoint

/-- One argument with what follows it. -/
def argumentTurn (total : Nat) (tokens : List Token) (args : List Expr) (c : Cursor) :
    Option (Turn (List Expr) Arguments) := do
  let (arg, c) ← c |>.expression total tokens
  some (afterArgument total tokens args arg c)
partial_fixpoint

/-- A literal, a name, a call or a parenthesis. -/
def primary (total : Nat) (tokens : List Token) (c : Cursor) : Option (Expr × Cursor) :=
  match c.next? tokens with
  | none => some (c.missing total tokens, c.record total tokens .expression)
  | some t =>
    match t.kind.literalKind? with
    | some kind => some (.literal t.span kind t.text, c.advance tokens)
    | none =>
      if t.kind = .ident then
        if (c.advance tokens).isAt tokens .leftParen then do
          let (args, c) ← c.advance tokens |>.arguments total tokens
          some (.call (t.span.merge args.close) .absent t.text args.list, c)
        else some (.ident t.span t.text, c.advance tokens)
      else if t.kind = .leftParen then do
        let (inner, c) ← c.advance tokens |>.expression total tokens
        some (closeParen total tokens t.span inner c)
      -- the token is left to whatever encloses the missing expression
      else some (c.missing total tokens, c.record total tokens .expression)
partial_fixpoint

end

end Cursor

end OperandOrder
