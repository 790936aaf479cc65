import OperandOrder.Arena
import OperandOrder.Parser.Descent

/-!
# Reading into an arena

The procedures of `OperandOrder.Parser.Descent` once more, as they fill an arena. Where `Cursor`
hands back a tree, `Draft` hands back a reference: a node is added as soon as all that it consists
of has been read. The span of a node that has been added is looked up when it is needed.

Two things are kept outside the arena for a while. The arguments of a call are gathered in a list,
which goes into the list storage behind the last of them; the cell of the call comes right after it.
The operands of a run are gathered as well (`Strand`). A run is added when it is closed. What closes
it may be another operator of its level, and then the operand behind that operator is in the arena
already.

An answer is optional for two reasons: a procedure may not come to an end, and a look-up may find
nothing.
-/

namespace OperandOrder

namespace Arena

/-- The span of the node at a reference. -/
def span? (a : Arena) (r : Ref) : Option Span := (a.cell? r).map (·.span)

/-- Adds a cell. -/
def pushCell (a : Arena) (span : Span) (kind : Kind) : Arena × Ref :=
  (⟨a.cells.push ⟨span, kind⟩, a.lists⟩, refOf a.cells.size)

end Arena

/-- **A run of operands under one operator,** still open to more. The operands are in the arena, the
node that joins them is not. -/
inductive Strand where
  | single (first : Ref)
  | joined (op : BinaryOp) (first : Ref) (others : List Ref)
  deriving DecidableEq, Repr

/-- The arguments of a call in the list storage, with the span of what closes them. -/
structure ArgumentList where
  stretch : Stretch
  close : Span
  deriving DecidableEq, Repr

/-- **Reading under way:** where it stands, and the arena that it fills. -/
structure Draft where
  cursor : Cursor
  arena : Arena
  deriving DecidableEq, Repr

namespace Draft

variable (total : Nat) (tokens : List Token) (d : Draft)

/-! ### The cursor -/

/-- Passes a token over. -/
def advance : Draft := ⟨d.cursor.advance tokens, d.arena⟩

/-- Records that something else was expected at the cursor. -/
def record (what : Expectation) : Draft := ⟨d.cursor.record total tokens what, d.arena⟩

/-- Passes a token of a kind over, if there is one at the cursor. -/
def eat (kind : TokenKind) : Option Token × Draft :=
  match d.cursor.eat tokens kind with
  | (t, c) => (t, ⟨c, d.arena⟩)

/-- Passes a token of a kind over, or records that it was expected. -/
def expect (kind : TokenKind) (what : Expectation) : Option Token × Draft :=
  match d.cursor.expect total tokens kind what with
  | (t, c) => (t, ⟨c, d.arena⟩)

/-! ### The arena -/

/-- Adds a node, its list included. -/
def add (node : Node) : Ref × Draft :=
  match d.arena.push node with
  | (arena, r) => (r, ⟨d.cursor, arena⟩)

/-- Adds a call whose arguments are in the list storage. -/
def addCall (span : Span) (receiver : Ref) (name : String) (args : Stretch) : Ref × Draft :=
  match d.arena.pushCell span (.call receiver name args) with
  | (arena, r) => (r, ⟨d.cursor, arena⟩)

/-- Adds arguments to the list storage. -/
def addArguments (args : List Ref) (close : Span) : ArgumentList × Draft :=
  match d.arena.pushList args with
  | (arena, stretch) => (⟨stretch, close⟩, ⟨d.cursor, arena⟩)

/-- Adds a node that reaches from one node to another. -/
def addBetween (first last : Ref) (shape : Shape) : Option (Ref × Draft) := do
  let start ← d.arena.span? first
  let stop ← d.arena.span? last
  some (d.add ⟨start.merge stop, shape⟩)

/-- Adds what stands in for an operand that is not there. -/
def missing : Ref × Draft :=
  d.add ⟨.point (Parser.here total (d.cursor.rest tokens)).start, .error⟩

/-- Adds the node that a run makes. -/
def close : Strand → Option (Ref × Draft)
  | .single first => some (first, d)
  | .joined op first others =>
    d.addBetween first (others.getLastD first) (.join op (first :: others))

/-- One more operand: it lengthens a run of the same operator and closes any other. -/
def extend (op : BinaryOp) (operand : Ref) : Strand → Option (Strand × Draft)
  | .single first => some (.joined op first [operand], d)
  | .joined op' first others =>
    if op' = op then some (.joined op first (others ++ [operand]), d)
    else do
      let (left, d) ← d.close (.joined op' first others)
      some (.joined op left [operand], d)

end Draft

/-! ### The grammar -/

namespace Draft

mutual

/-- An expression. -/
def expression (total : Nat) (tokens : List Token) (d : Draft) : Option (Ref × Draft) :=
  d |>.conditional total tokens
partial_fixpoint

/-- `cond ? yes : no` -/
def conditional (total : Nat) (tokens : List Token) (d : Draft) : Option (Ref × Draft) := do
  let (cond, d) ← d |>.binary total tokens Cursor.loosest
  match d.eat tokens .question with
  | (none, d) => some (cond, d)
  | (some _, d) =>
    let (yes, d) ← d |>.expression total tokens
    match d.expect total tokens .colon .colon with
    | (some _, d) =>
      let (no, d) ← d |>.expression total tokens
      d.addBetween cond no (.conditional cond yes no)
    | (none, d) =>
      match d.missing total tokens with
      | (no, d) => d.addBetween cond no (.conditional cond yes no)
partial_fixpoint

/-- Operands with operators of a level, or of a tighter one, between them. -/
def binary (total : Nat) (tokens : List Token) (level : Nat) (d : Draft) : Option (Ref × Draft) :=
  if level < Cursor.tightest then d |>.unary total tokens
  else do
    let (first, d) ← d |>.binary total tokens (level - 1)
    d |>.chain total tokens level (.single first)
partial_fixpoint

/-- The loop over the operators of a level. -/
def chain (total : Nat) (tokens : List Token) (level : Nat) (strand : Strand) (d : Draft) :
    Option (Ref × Draft) :=
  match d.cursor.operator? tokens level with
  | none => d.close strand
  | some op => do
    let (operand, d) ← d.advance tokens |>.binary total tokens (level - 1)
    let (strand, d) ← d.extend op operand strand
    d |>.chain total tokens level strand
partial_fixpoint

/-- Unary operators before a primary with its members. -/
def unary (total : Nat) (tokens : List Token) (d : Draft) : Option (Ref × Draft) :=
  match d.cursor.next? tokens with
  | none => d |>.accessed total tokens
  | some t =>
    match t.kind.unary? with
    | none => d |>.accessed total tokens
    | some op => do
      let (operand, d) ← d.advance tokens |>.unary total tokens
      let stop ← d.arena.span? operand
      some (d.add ⟨t.span.merge stop, .unary op operand⟩)
partial_fixpoint

/-- A primary with its members. -/
def accessed (total : Nat) (tokens : List Token) (d : Draft) : Option (Ref × Draft) := do
  let (first, d) ← d |>.primary total tokens
  d |>.members total tokens first
partial_fixpoint

/-- The loop over members, `.name` or `.name(args)`. A point without a name is passed over. -/
def members (total : Nat) (tokens : List Token) (receiver : Ref) (d : Draft) :
    Option (Ref × Draft) :=
  match d.eat tokens .dot with
  | (none, d) => some (receiver, d)
  | (some _, d) =>
    match d.expect total tokens .ident .memberName with
    | (none, d) => some (receiver, d)
    | (some name, d) => do
      let start ← d.arena.span? receiver
      if d.cursor.isAt tokens .leftParen then do
        let (args, d) ← d |>.arguments total tokens
        match d.addCall (start.merge args.close) receiver name.text args.stretch with
        | (call, d) => d |>.members total tokens call
      else
        match d.add ⟨start.merge name.span, .field receiver name.text⟩ with
        | (field, d) => d |>.members total tokens field
partial_fixpoint

/-- The arguments of a call, from the opening parenthesis on. -/
def arguments (total : Nat) (tokens : List Token) (d : Draft) : Option (ArgumentList × Draft) :=
  match (d.advance tokens).eat tokens .rightParen with
  | (some close, d) => some (d.addArguments [] close.span)
  | (none, d) => d |>.argumentsFrom total tokens []
partial_fixpoint

/-- The loop over arguments. -/
def argumentsFrom (total : Nat) (tokens : List Token) (args : List Ref) (d : Draft) :
    Option (ArgumentList × Draft) := do
  let (arg, d) ← d |>.expression total tokens
  match d.eat tokens .comma with
  | (some _, d) => d |>.argumentsFrom total tokens (args ++ [arg])
  | (none, d) =>
    match d.expect total tokens .rightParen .commaOrClosingParen with
    | (some close, d) => some (d.addArguments (args ++ [arg]) close.span)
    -- the last argument closes the call
    | (none, d) => do
      let close ← d.arena.span? arg
      some (d.addArguments (args ++ [arg]) close)
partial_fixpoint

/-- A literal, a name, a call or a parenthesis. -/
def primary (total : Nat) (tokens : List Token) (d : Draft) : Option (Ref × Draft) :=
  match d.cursor.next? tokens with
  | none => some ((d.record total tokens .expression).missing total tokens)
  | some t =>
    match t.kind.literalKind? with
    | some kind => some ((d.advance tokens).add ⟨t.span, .literal kind t.text⟩)
    | none =>
      if t.kind = .ident then
        if (d.advance tokens).cursor.isAt tokens .leftParen then do
          let (args, d) ← d.advance tokens |>.arguments total tokens
          some (d.addCall (t.span.merge args.close) none t.text args.stretch)
        else some ((d.advance tokens).add ⟨t.span, .ident t.text⟩)
      else if t.kind = .leftParen then do
        let (inner, d) ← d.advance tokens |>.expression total tokens
        match d.expect total tokens .rightParen .closingParen with
        | (some close, d) => some (d.add ⟨t.span.merge close.span, .paren inner⟩)
        -- the content closes the parenthesis
        | (none, d) => do
          let stop ← d.arena.span? inner
          some (d.add ⟨t.span.merge stop, .paren inner⟩)
      -- the token is left to whatever encloses the missing expression
      else some ((d.record total tokens .expression).missing total tokens)
partial_fixpoint

end

end Draft

/-- **What reading a source text into an arena gives.** -/
structure ParsedArena where
  arena : Arena
  root : Ref
  errors : List ParseError
  deriving DecidableEq, Repr

/-- **Reads a source text into an arena of its own,** as one expression. -/
def parseArena? (source : String) : Option ParsedArena := do
  let lexed := lex source
  -- no offset is beyond the limit, so that of the end is not either
  let total := min (Text.width source.toList) Span.limit
  let (root, d) ← (⟨⟨0, []⟩, .empty⟩ : Draft).expression total lexed.tokens
  let errors := lexed.errors ++
    (d.cursor.errors ++ Parser.leftover total (d.cursor.rest lexed.tokens))
  some ⟨d.arena, root, errors.mergeSort fun a b => a.span.start ≤ b.span.start⟩

end OperandOrder
