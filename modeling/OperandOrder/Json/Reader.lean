import OperandOrder.Json.Numeral
import OperandOrder.Text.Width

/-!
# Reading JSON

Parts of a JSON text are read from the front of a list of characters; what is left comes back.
Reading is streaming: the first fault that is met, going from left to right, is the one that is
reported. A fault is one of three (`Json.Fault`): the text goes against the grammar, it ends too
early, or it is well-formed so far and holds a value of the wrong kind.

A value that nobody asks for is passed over by `Json.skipValue`, which is less strict on numbers and
on escapes than the readers of values that are asked for.
-/

namespace OperandOrder.Json

/-- **Why a document is not accepted.** -/
inductive Fault where
  /-- Well-formed as far as it was read, and not what was asked for. -/
  | wrongKind
  /-- Against the grammar. -/
  | malformed
  /-- The text ends too early. -/
  | ended
  deriving DecidableEq, Repr

def isBlank (c : Char) : Bool := c == ' ' || c == '\n' || c == '\t' || c == '\r'

def skipBlank (cs : List Char) : List Char := cs.dropWhile isBlank

/-- Reads exactly these characters. -/
def word : List Char → List Char → Except Fault (List Char)
  | [], cs => .ok cs
  | _ :: _, [] => .error .ended
  | w :: ws, c :: cs => if w = c then word ws cs else .error .malformed

/-! ### Strings -/

def hexDigit? (c : Char) : Option Nat :=
  if c.isDigit then some (c.toNat - '0'.toNat)
  else if 'a' ≤ c ∧ c ≤ 'f' then some (c.toNat - 'a'.toNat + 10)
  else if 'A' ≤ c ∧ c ≤ 'F' then some (c.toNat - 'A'.toNat + 10)
  else none

/-- Four hexadecimal digits. Four bytes have to be left, whatever they are. -/
def hexUnit : List Char → Except Fault Nat
  | a :: b :: c :: d :: _ =>
    match hexDigit? a, hexDigit? b, hexDigit? c, hexDigit? d with
    | some a, some b, some c, some d => .ok (((a * 16 + b) * 16 + c) * 16 + d)
    | _, _, _, _ => .error .malformed
  | few => if Text.width few < 4 then .error .ended else .error .malformed

def isHighSurrogate (n : Nat) : Bool := 0xD800 ≤ n && n ≤ 0xDBFF

def isLowSurrogate (n : Nat) : Bool := 0xDC00 ≤ n && n ≤ 0xDFFF

/-- The low half of a surrogate pair, from its backslash on. -/
def lowSurrogate : List Char → Except Fault Nat
  | [] | ['\\'] => .error .ended
  | '\\' :: 'u' :: cs => do
    let n ← hexUnit cs
    if isLowSurrogate n then .ok n else .error .malformed
  | _ => .error .malformed

/-- A numbered character after `\u`, and how many characters its number takes. A surrogate has to
stand in a pair if the text is asked for. -/
def numberedChar (strict : Bool) (cs : List Char) : Except Fault (Char × Nat) := do
  let n ← hexUnit cs
  if !strict then .ok (Char.ofNat n, 4)
  else if isLowSurrogate n then .error .malformed
  else if isHighSurrogate n then
    let m ← lowSurrogate (cs.drop 4)
    .ok (Char.ofNat (0x10000 + (n - 0xD800) * 0x400 + (m - 0xDC00)), 10)
  else .ok (Char.ofNat n, 4)

/-- An escaped character after a backslash, and how many characters it takes. -/
def escaped (strict : Bool) : List Char → Except Fault (Char × Nat)
  | [] => .error .ended
  | '\x22' :: _ => .ok ('\x22', 1)
  | '\\' :: _ => .ok ('\\', 1)
  | '/' :: _ => .ok ('/', 1)
  | 'b' :: _ => .ok ('\x08', 1)
  | 'f' :: _ => .ok ('\x0c', 1)
  | 'n' :: _ => .ok ('\n', 1)
  | 'r' :: _ => .ok ('\r', 1)
  | 't' :: _ => .ok ('\t', 1)
  | 'u' :: cs => (numberedChar strict cs).map fun (c, n) => (c, n + 1)
  | _ => .error .malformed

/-- **A string,** its opening quote passed over. -/
def string (strict : Bool) : List Char → Except Fault (List Char × List Char)
  | [] => .error .ended
  | c :: cs =>
    if c = '\x22' then .ok ([], cs)
    else if c = '\\' then do
      let (d, n) ← escaped strict cs
      let (ds, rest) ← string strict (cs.drop n)
      .ok (d :: ds, rest)
    else if c.toNat < 0x20 then .error .malformed
    else do
      let (ds, rest) ← string strict cs
      .ok (c :: ds, rest)
termination_by cs => cs.length
decreasing_by all_goals simp only [List.length_cons, List.length_drop]; omega

/-! ### Numbers -/

/-- The digits of an exponent, or none if there is no exponent. -/
def exponentPart (atEnd : Fault) (cs : List Char) : Except Fault ((Bool × List Char) × List Char) :=
  match cs with
  | [] => .ok ((false, []), [])
  | e :: rest =>
    if e == 'e' || e == 'E' then
      let (negative, ds) := match rest with
        | '+' :: ds => (false, ds)
        | '-' :: ds => (true, ds)
        | ds => (false, ds)
      match ds with
      | [] => .error atEnd
      | d :: _ =>
        if d.isDigit then .ok ((negative, ds.takeWhile Char.isDigit), ds.dropWhile Char.isDigit)
        else .error .malformed
    else .ok ((false, []), cs)

/-- The digits after a point, or none if there is no point. -/
def fractionPart (atEnd : Fault) (cs : List Char) : Except Fault (List Char × List Char) :=
  match cs with
  | ['.'] => .error atEnd
  | '.' :: d :: ds =>
    if d.isDigit then .ok (d :: ds.takeWhile Char.isDigit, ds.dropWhile Char.isDigit)
    else .error .malformed
  | _ => .ok ([], cs)

/-- The digits before a point; more than one of them do not begin with zero. -/
def wholePart (atEnd : Fault) : List Char → Except Fault (List Char × List Char)
  | [] => .error atEnd
  | d :: ds =>
    if d = '0' then
      if ds.head?.any Char.isDigit then .error .malformed else .ok (['0'], ds)
    else if d.isDigit then .ok (d :: ds.takeWhile Char.isDigit, ds.dropWhile Char.isDigit)
    else .error .malformed

/-- **A number.** `atEnd` is the fault of a text that ends inside it. -/
def numeral (atEnd : Fault) (cs : List Char) : Except Fault (Numeral × List Char) := do
  let unsigned := match cs with
    | '-' :: ds => ds
    | ds => ds
  let (whole, cs) ← wholePart atEnd unsigned
  let (fraction, cs) ← fractionPart atEnd cs
  let ((negative, exponent), cs) ← exponentPart atEnd cs
  .ok (⟨whole, fraction, negative, exponent⟩, cs)

/-! ### Values that are passed over -/

/-- A list or an object that is still open. -/
inductive Frame where
  | list
  | object

/-- A value that holds no others. -/
def skipScalar : List Char → Except Fault (List Char)
  | [] => .error .ended
  | c :: cs =>
    if c = 'n' then word "ull".toList cs
    else if c = 't' then word "rue".toList cs
    else if c = 'f' then word "alse".toList cs
    else if c = '\x22' then (string false cs).map (·.2)
    else if c = '-' || c.isDigit then (numeral .malformed (c :: cs)).map (·.2)
    else .error .malformed

/-- A key with its colon. -/
def skipKey (cs : List Char) : Except Fault (List Char) :=
  match skipBlank cs with
  | [] => .error .ended
  | '\x22' :: cs => do
    let (_, cs) ← string false cs
    match skipBlank cs with
    | [] => .error .ended
    | ':' :: cs => .ok cs
    | _ => .error .malformed
  | _ => .error .malformed

mutual

/-- Passes over a value and all that closes the open frames, in at most `n` steps. -/
def skipWithin : Nat → List Frame → List Char → Except Fault (List Char)
  | 0, _, _ => .error .ended
  | n + 1, frames, cs =>
    match skipBlank cs with
    | [] => .error .ended
    | '[' :: cs =>
      match skipBlank cs with
      | [] => .error .ended
      | ']' :: cs => closeWithin n frames cs
      | cs => skipWithin n (.list :: frames) cs
    | '\x7b' :: cs =>
      match skipBlank cs with
      | [] => .error .ended
      | '\x7d' :: cs => closeWithin n frames cs
      | cs => do skipWithin n (.object :: frames) (← skipKey cs)
    | cs => do closeWithin n frames (← skipScalar cs)

/-- Goes on after a value. -/
def closeWithin : Nat → List Frame → List Char → Except Fault (List Char)
  | _, [], cs => .ok cs
  | 0, _, _ => .error .ended
  | n + 1, frame :: frames, cs =>
    match frame, skipBlank cs with
    | _, [] => .error .ended
    | .list, ',' :: cs => skipWithin n (.list :: frames) cs
    | .list, ']' :: cs => closeWithin n frames cs
    | .object, ',' :: cs => do skipWithin n (.object :: frames) (← skipKey cs)
    | .object, '\x7d' :: cs => closeWithin n frames cs
    | _, _ => .error .malformed

end

/-- **Passes over any value.** Every two steps take a character at least. -/
def skipValue (cs : List Char) : Except Fault (List Char) :=
  skipWithin (2 * cs.length + 2) [] cs

/-! ### Values that are asked for -/

/-- The fault of a value that is not of the kind asked for: it is read as far as its kind shows, and
may be malformed. -/
def mismatch : List Char → Fault
  | [] => .ended
  | c :: cs =>
    let outcome : Except Fault Unit :=
      if c = 'n' then (word "ull".toList cs).map fun _ => ()
      else if c = 't' then (word "rue".toList cs).map fun _ => ()
      else if c = 'f' then (word "alse".toList cs).map fun _ => ()
      else if c = '\x22' then (string true cs).map fun _ => ()
      else if c = '-' || c.isDigit then do
        let (n, _) ← numeral .ended (c :: cs)
        if n.isTooLarge then .error .malformed else .ok ()
      else if c = '[' || c = '\x7b' then .ok ()
      else .error .malformed
    match outcome with
    | .ok () => .wrongKind
    | .error fault => fault

/-- A string with blanks before it. -/
def stringValue (cs : List Char) : Except Fault (String × List Char) :=
  match skipBlank cs with
  | [] => .error .ended
  | '\x22' :: cs => (string true cs).map fun (text, rest) => (String.ofList text, rest)
  | cs => .error (mismatch cs)

/-- The colon after a key. -/
def colon (cs : List Char) : Except Fault (List Char) :=
  match skipBlank cs with
  | [] => .error .ended
  | ':' :: cs => .ok cs
  | _ => .error .malformed

end OperandOrder.Json
