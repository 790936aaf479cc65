import OperandOrder.Text.Blank
import OperandOrder.Text.Width

/-!
# Lines of a file

A file holds one expression to a line. A *raw line* is a line with its terminator; the raw lines of
a text, one after the other, are the text (`rawLines_flatten`). The terminator is the run of line
feeds and carriage returns at the end of a raw line, and the text of the line is what comes before
it (`body_append_ending`).

`expressionLines` lists the lines that hold an expression: all but blank ones and those that begin
with `//`. `replaceLines` puts new texts in the place of some lines and keeps everything else,
terminators included.
-/

namespace OperandOrder

namespace Lines

/-- **The lines of a text,** each with its terminator. -/
def rawLines : List Char → List (List Char)
  | [] => []
  | c :: cs =>
    if c = '\n' then [c] :: rawLines cs
    else
      match rawLines cs with
      | [] => [[c]]
      | line :: lines => (c :: line) :: lines

/-- **Lines are a division of the text:** one behind another, they are the text again. -/
theorem rawLines_flatten (cs : List Char) : (rawLines cs).flatten = cs := by
  induction cs with
  | nil => rfl
  | cons c cs ih =>
    unfold rawLines
    split
    · simp [ih]
    · split
      · rename_i h
        simp only [h, List.flatten_nil] at ih
        simp [← ih]
      · rename_i h
        simp only [h, List.flatten_cons] at ih
        simp [ih]

def isEnding (c : Char) : Bool := c == '\n' || c == '\r'

/-- A raw line without its terminator. -/
def body (raw : List Char) : List Char := (raw.reverse.dropWhile isEnding).reverse

/-- The terminator of a raw line. -/
def ending (raw : List Char) : List Char := (raw.reverse.takeWhile isEnding).reverse

/-- A line is its text and its terminator. -/
theorem body_append_ending (raw : List Char) : body raw ++ ending raw = raw := by
  rw [body, ending, ← List.reverse_append, List.takeWhile_append_dropWhile, List.reverse_reverse]

/-- Whether a text begins a comment. -/
def isComment : List Char → Bool
  | '/' :: '/' :: _ => true
  | _ => false

/-- Whether a line holds an expression. -/
def isExpression (text : List Char) : Bool :=
  let trimmed := Text.trimStart text
  !trimmed.isEmpty && !isComment trimmed

end Lines

/-- **A line of a file:** its number, counted from one, its offset in bytes, and its text. -/
structure SourceLine where
  number : Nat
  offset : Nat
  text : List Char
  deriving DecidableEq, Repr

namespace Lines

/-- The expression lines among raw lines, the first of which has this number and this offset. -/
def expressionLinesFrom (number offset : Nat) : List (List Char) → List SourceLine
  | [] => []
  | raw :: raws =>
    let later := expressionLinesFrom (number + 1) (offset + Text.width raw) raws
    if isExpression (body raw) then ⟨number, offset, body raw⟩ :: later else later

/-- **The expression lines** of a text. -/
def expressionLines (source : String) : List SourceLine :=
  expressionLinesFrom 1 0 (rawLines source.toList)

/-- Raw lines, the first of which has this number, with replacements put in. The replacements are
taken in order; one whose line has passed by holds up those behind it. -/
def replaceFrom (number : Nat) : List (Nat × String) → List (List Char) → List (List Char)
  | _, [] => []
  | [], raws => raws
  | (target, text) :: later, raw :: raws =>
    if target = number then (text.toList ++ ending raw) :: replaceFrom (number + 1) later raws
    else raw :: replaceFrom (number + 1) ((target, text) :: later) raws

/-- **A text with some lines replaced,** given in ascending order by number. -/
def replaceLines (source : String) (replacements : List (Nat × String)) : String :=
  String.ofList (replaceFrom 1 replacements (rawLines source.toList)).flatten

end Lines

end OperandOrder
