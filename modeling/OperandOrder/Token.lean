import OperandOrder.Expr

/-!
# Tokens

A `Token` is a lexeme with its kind and its place. Every operator is a token of its own, so a binary
operator is carried by the kind; `-` and `+` serve as unary operators too.
-/

namespace OperandOrder

/-- The kinds of tokens. -/
inductive TokenKind where
  | trueWord | falseWord | nullWord
  | ident | number | str | char
  | leftParen | rightParen | comma | dot | question | colon
  | bang | tilde
  | operator (op : BinaryOp)
  deriving DecidableEq, Repr

namespace TokenKind

/-- The literal that a token of this kind is. -/
def literalKind? : TokenKind → Option LiteralKind
  | .trueWord | .falseWord => some .bool
  | .nullWord => some .null
  | .number => some .number
  | .str => some .str
  | .char => some .char
  | _ => none

/-- The unary operator that a token of this kind can be. -/
def unary? : TokenKind → Option UnaryOp
  | .operator .sub => some .neg
  | .operator .add => some .plus
  | .bang => some .not
  | .tilde => some .bitNot
  | _ => none

/-- The binary operator that a token of this kind is. -/
def binary? : TokenKind → Option BinaryOp
  | .operator op => some op
  | _ => none

end TokenKind

/-- **A token:** its kind, where it stands, and how it is written. -/
structure Token where
  kind : TokenKind
  span : Span
  text : String
  deriving DecidableEq, Repr

end OperandOrder
