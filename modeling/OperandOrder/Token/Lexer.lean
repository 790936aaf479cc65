import OperandOrder.ParseError
import OperandOrder.Text.Width
import OperandOrder.Token

/-!
# Reading tokens

`lex` cuts a source text into tokens. At each place the longest lexeme is taken, and a keyword wins
over an identifier of the same text. A character that begins no lexeme is reported and passed over;
a quote that is never closed is reported and ends the reading.

A lexeme is described by its first character and by *how many more* characters it takes
(`Lexeme.next`). So the lexemes of a text, one after the other, are the text itself, and each of
them takes at least one character: both hold by construction, and the second is why reading ends.
-/

namespace OperandOrder

/-- What a lexeme can be. -/
inductive Lexeme where
  | blank
  | token (kind : TokenKind)
  /-- A character that begins no token. -/
  | invalid
  /-- A quote that is never closed. -/
  | unterminated
  deriving DecidableEq, Repr

namespace Lexeme

/-! ### Classes of characters -/

def isBlank (c : Char) : Bool := c == ' ' || c == '\t' || c == '\r' || c == '\n' || c == '\x0c'

def isWordStart (c : Char) : Bool := c.isAlpha || c == '_' || c == '$'

def isWordChar (c : Char) : Bool := isWordStart c || c.isDigit

/-- A digit of a decimal number, or the mark that may stand between two. -/
def isDigitOrMark (c : Char) : Bool := c.isDigit || c == '_'

def isHexOrMark (c : Char) : Bool :=
  c.isDigit || ('a' ≤ c && c ≤ 'f') || ('A' ≤ c && c ≤ 'F') || c == '_'

/-! ### How far a part of a lexeme reaches

Each function gives the number of characters that its part takes at the front of the text. -/

/-- The characters of one class at the front. -/
def reach (p : Char → Bool) (cs : List Char) : Nat := (cs.takeWhile p).length

/-- A point with at least one digit after it. -/
def fractionReach : List Char → Nat
  | '.' :: d :: cs => if d.isDigit then 2 + reach isDigitOrMark cs else 0
  | _ => 0

/-- Digits after `lead` characters of an exponent; without a digit there is no exponent. -/
def exponentDigits (lead : Nat) (cs : List Char) : Nat :=
  match reach Char.isDigit cs with
  | 0 => 0
  | n + 1 => lead + n + 1

/-- The letter `e`, a sign or none, and at least one digit. -/
def exponentReach : List Char → Nat
  | [] => 0
  | e :: cs =>
    if e == 'e' || e == 'E' then
      match cs with
      | '+' :: ds => exponentDigits 2 ds
      | '-' :: ds => exponentDigits 2 ds
      | ds => exponentDigits 1 ds
    else 0

/-- One of the letters that may close a number. -/
def suffixReach (letters : List Char) : List Char → Nat
  | [] => 0
  | c :: _ => if letters.contains c then 1 else 0

/-- What follows the first digit of a decimal number. -/
def decimalReach (cs : List Char) : Nat :=
  let whole := reach isDigitOrMark cs
  let fraction := fractionReach (cs.drop whole)
  let exponent := exponentReach (cs.drop (whole + fraction))
  let body := whole + fraction + exponent
  body + suffixReach ['l', 'L', 'f', 'F', 'd', 'D'] (cs.drop body)

/-- What follows the first digit of a hexadecimal number, if it is one. -/
def hexReach? (first : Char) : List Char → Option Nat
  | x :: cs =>
    if first == '0' && (x == 'x' || x == 'X') then
      match reach isHexOrMark cs with
      -- `0x` without a digit is the number `0` and a name
      | 0 => none
      | n + 1 => some (n + 2 + suffixReach ['l', 'L'] (cs.drop (n + 1)))
    else none
  | [] => none

/-- What follows the first digit of a number. -/
def numberReach (first : Char) (cs : List Char) : Nat :=
  (hexReach? first cs).getD (decimalReach cs)

/-- What follows the opening quote up to and with the closing one, if there is one before the end of
the line. A backslash takes the next character with it. -/
def quotedReach? (quote : Char) : List Char → Option Nat
  | [] => none
  | c :: cs =>
    if c == quote then some 1
    else if c == '\n' then none
    else if c == '\\' then
      match cs with
      | [] => none
      | d :: ds => if d == '\n' then none else (quotedReach? quote ds).map (· + 2)
    else (quotedReach? quote cs).map (· + 1)

/-- A literal between quotes. -/
def quoted (kind : TokenKind) (quote : Char) (cs : List Char) : Lexeme × Nat :=
  match quotedReach? quote cs with
  | some n => (.token kind, n)
  | none => (.unterminated, 0)

/-- A keyword or an identifier. -/
def wordKind (text : List Char) : TokenKind :=
  if text = "true".toList then .trueWord
  else if text = "false".toList then .falseWord
  else if text = "null".toList then .nullWord
  else .ident

/-- A sign: its kind, and how many characters follow the first one. -/
def sign? (c : Char) (cs : List Char) : Option (TokenKind × Nat) :=
  match c, cs with
  | '(', _ => some (.leftParen, 0)
  | ')', _ => some (.rightParen, 0)
  | ',', _ => some (.comma, 0)
  | '.', _ => some (.dot, 0)
  | '?', _ => some (.question, 0)
  | ':', _ => some (.colon, 0)
  | '~', _ => some (.tilde, 0)
  | '*', _ => some (.operator .mul, 0)
  | '/', _ => some (.operator .div, 0)
  | '%', _ => some (.operator .rem, 0)
  | '+', _ => some (.operator .add, 0)
  | '-', _ => some (.operator .sub, 0)
  | '^', _ => some (.operator .bitXor, 0)
  | '<', '<' :: _ => some (.operator .shl, 1)
  | '<', '=' :: _ => some (.operator .le, 1)
  | '<', _ => some (.operator .lt, 0)
  | '>', '>' :: '>' :: _ => some (.operator .ushr, 2)
  | '>', '>' :: _ => some (.operator .shr, 1)
  | '>', '=' :: _ => some (.operator .ge, 1)
  | '>', _ => some (.operator .gt, 0)
  | '=', '=' :: _ => some (.operator .eq, 1)
  | '!', '=' :: _ => some (.operator .ne, 1)
  | '!', _ => some (.bang, 0)
  | '&', '&' :: _ => some (.operator .and, 1)
  | '&', _ => some (.operator .bitAnd, 0)
  | '|', '|' :: _ => some (.operator .or, 1)
  | '|', _ => some (.operator .bitOr, 0)
  | _, _ => none

/-- **The longest lexeme** of the text `c :: cs`, with the number of characters it takes of `cs`. -/
def next (c : Char) (cs : List Char) : Lexeme × Nat :=
  if isBlank c then (.blank, 0)
  else if isWordStart c then
    let n := reach isWordChar cs
    (.token (wordKind (c :: cs.take n)), n)
  else if c.isDigit then (.token .number, numberReach c cs)
  else if c == '\x22' then quoted .str c cs
  else if c == '\x27' then quoted .char c cs
  else
    match sign? c cs with
    | some (kind, n) => (.token kind, n)
    | none => (.invalid, 0)

end Lexeme

/-- Tokens and errors, each in the order of the text. -/
structure Lexed where
  tokens : List Token
  errors : List ParseError
  deriving DecidableEq, Repr

namespace Lexed

def empty : Lexed := ⟨[], []⟩

/-- Only an error. -/
def failed (error : ParseError) : Lexed := ⟨[], [error]⟩

def consToken (token : Token) (later : Lexed) : Lexed :=
  { later with tokens := token :: later.tokens }

def consError (error : ParseError) (later : Lexed) : Lexed :=
  { later with errors := error :: later.errors }

end Lexed

/-- **Reading tokens from a place on.** The text `cs` stands `offset` bytes into a source of `total`
bytes. -/
def lexFrom (total offset : Nat) : List Char → Lexed
  | [] => .empty
  | c :: cs =>
    let found := Lexeme.next c cs
    let text := c :: cs.take found.2
    let rest := cs.drop found.2
    let stop := offset + Text.width text
    match found.1 with
    -- blanks have no span, so they may stand beyond the limit
    | .blank => lexFrom total stop rest
    | lexeme =>
      match Span.ofBounds? offset stop with
      | .error overflow => .failed (.sourceTooLarge overflow)
      | .ok span =>
        match lexeme with
        | .token kind => (lexFrom total stop rest).consToken ⟨kind, span, String.ofList text⟩
        -- nothing behind an open quote is read
        | .unterminated => .failed (.unterminatedLiteral ⟨offset, min total Span.limit⟩)
        | _ => (lexFrom total stop rest).consError (.invalidCharacter (String.ofList text) span)
termination_by cs => cs.length
decreasing_by all_goals simp only [List.length_cons, List.length_drop]; omega

/-- **The tokens of a source text.** -/
def lex (source : String) : Lexed := lexFrom (Text.width source.toList) 0 source.toList

end OperandOrder
