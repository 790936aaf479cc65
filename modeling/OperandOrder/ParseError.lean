import OperandOrder.Span

/-!
# Errors of reading an expression

Every error is recoverable: reading goes on, and an `Expr.error` stands where an operand was looked
for. The wording of all of them is `ParseError.message`.
-/

namespace OperandOrder

/-- What was looked for when something else stood there. -/
inductive Expectation where
  | expression
  | endOfExpression
  | memberName
  | colon
  | closingParen
  | commaOrClosingParen
  deriving DecidableEq, Repr

/-- How an expectation is worded. -/
def Expectation.text : Expectation → String
  | .expression => "expression"
  | .endOfExpression => "end of expression"
  | .memberName => "member name"
  | .colon => "`:`"
  | .closingParen => "`)`"
  | .commaOrClosingParen => "`,` or `)`"

/-- **The errors.** -/
inductive ParseError where
  /-- Another token stood where something was expected. -/
  | unexpectedToken (expected : Expectation) (found : String) (span : Span)
  /-- The text ended where something was expected. -/
  | unexpectedEnd (expected : Expectation) (span : Span)
  /-- A character that begins no token. -/
  | invalidCharacter (text : String) (span : Span)
  /-- A quote without its partner; all that follows it belongs to the literal. -/
  | unterminatedLiteral (span : Span)
  /-- An offset that does not fit in 32 bits. -/
  | sourceTooLarge (overflow : Span.Overflow)
  deriving DecidableEq, Repr

namespace ParseError

/-- Where the error is; an error without a place is reported at the start. -/
def span : ParseError → Span
  | .unexpectedToken _ _ s | .unexpectedEnd _ s => s
  | .invalidCharacter _ s | .unterminatedLiteral s => s
  | .sourceTooLarge _ => .nowhere

/-- How the error is reported. -/
def message : ParseError → String
  | .unexpectedToken expected found _ => "expected " ++ expected.text ++ ", found `" ++ found ++ "`"
  | .unexpectedEnd expected _ => "expected " ++ expected.text ++ ", found end of input"
  | .invalidCharacter text _ => "invalid character `" ++ text ++ "`"
  | .unterminatedLiteral _ => "unterminated literal"
  | .sourceTooLarge overflow => overflow.message

end ParseError

end OperandOrder
