import OperandOrder.Span
import Std.Data.HashMap

/-!
# Name tables

A `NameTable` numbers texts in the order in which they are first seen. Number 0 is the empty text,
which is there from the start. A text that was seen before keeps its number, and the numbers of a
table give their texts back for good; a number that the table has not given out stands for the empty
text.

A table has two sides, the number of each text and the texts by their numbers, and nothing in its
type makes them fit. Numbers have 32 bits: when a table holds so many texts that the next number
would not fit, every further text gets the largest number.
-/

namespace OperandOrder

/-- **The texts seen so far,** with their numbers. -/
structure NameTable where
  /-- The number of each text. -/
  numbers : Std.HashMap String Nat
  /-- The texts, each at its number. -/
  texts : Array String

namespace NameTable

/-- A table that has seen no text, not even the empty one. -/
def blank : NameTable := ⟨∅, #[]⟩

/-- **The number of a text,** and the table that has seen it. -/
def intern (table : NameTable) (text : String) : NameTable × Nat :=
  match table.numbers[text]? with
  | some number => (table, number)
  | none =>
    let number := min table.texts.size Span.limit
    (⟨table.numbers.insert text number, table.texts.push text⟩, number)

/-- The table that has seen the empty text only. -/
def start : NameTable := (blank.intern "").1

/-- The text of a number. -/
def lookup (table : NameTable) (number : Nat) : String := table.texts[number]?.getD ""

def size (table : NameTable) : Nat := table.texts.size

/-- Whether no text but the empty one was seen. -/
def isEmpty (table : NameTable) : Bool := table.size ≤ 1

/-- The table after a list of texts. -/
def internAll (table : NameTable) (texts : List String) : NameTable :=
  texts.foldl (fun table text => (table.intern text).1) table

/-- The numbers that the texts of a list are given, one after the other. -/
def handles (table : NameTable) : List String → List Nat
  | [] => []
  | text :: texts => (table.intern text).2 :: (table.intern text).1.handles texts

/-! ### Small laws -/

variable {table : NameTable} {text : String}

theorem intern_of_seen {number : Nat} (h : table.numbers[text]? = some number) :
    table.intern text = (table, number) := by
  rw [intern, h]

theorem intern_of_new (h : table.numbers[text]? = none) :
    table.intern text =
      (⟨table.numbers.insert text (min table.texts.size Span.limit), table.texts.push text⟩,
        min table.texts.size Span.limit) := by
  rw [intern, h]

end NameTable

end OperandOrder
