/-!
# White space

`Text.isBlank` is the property White_Space of Unicode. It decides which lines are blank, where the
indentation of a line ends, and what may stand around the numbers of a range.
-/

namespace OperandOrder.Text

/-- The code points with the property White_Space, as ranges with both ends included. -/
def blankRanges : List (Nat × Nat) :=
  [(0x09, 0x0D), (0x20, 0x20), (0x85, 0x85), (0xA0, 0xA0), (0x1680, 0x1680), (0x2000, 0x200A),
    (0x2028, 0x2029), (0x202F, 0x202F), (0x205F, 0x205F), (0x3000, 0x3000)]

def isBlank (c : Char) : Bool :=
  blankRanges.any fun range => range.1 ≤ c.toNat && c.toNat ≤ range.2

/-- White space at the front. -/
def indent (cs : List Char) : List Char := cs.takeWhile isBlank

/-- What is left without white space at the front. -/
def trimStart (cs : List Char) : List Char := cs.dropWhile isBlank

/-- What is left without white space at the back. -/
def trimEnd (cs : List Char) : List Char := (cs.reverse.dropWhile isBlank).reverse

/-- What is left without white space on either side. -/
def trim (cs : List Char) : List Char := trimEnd (trimStart cs)

theorem indent_append_trimStart (cs : List Char) : indent cs ++ trimStart cs = cs :=
  List.takeWhile_append_dropWhile

end OperandOrder.Text
