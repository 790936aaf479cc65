import OperandOrder.Span

/-!
# Sets of ranges

A `RangeSet` keeps the ranges to be shown: ordered by start, no two of them overlapping. Overlap
includes the ends, so `1..5` and `5..9` become one range and `1..5` and `6..9` stay two.

`insert` lets the new range absorb every entry it overlaps, and every entry it comes to overlap
while it grows, and puts what has become of it in its place.
-/

namespace OperandOrder

/-- **Ordered ranges** of which no two overlap. -/
structure RangeSet where
  entries : List Span
  deriving DecidableEq, Repr

namespace RangeSet

/-- One pass: `r` absorbs the entries it overlaps as it comes to them. -/
def absorbOnce (r : Span) : List Span → Span × List Span
  | [] => (r, [])
  | e :: es =>
    if e.overlaps r then absorbOnce (e.merge r) es
    else
      let later := absorbOnce r es
      (later.1, e :: later.2)

/-- A go leaves no more entries than there were. -/
theorem absorbOnce_length_le (r : Span) (es : List Span) :
    (absorbOnce r es).2.length ≤ es.length := by
  induction es generalizing r with
  | nil => simp [absorbOnce]
  | cons e es ih =>
    unfold absorbOnce
    split
    · exact Nat.le_succ_of_le (ih _)
    · exact Nat.succ_le_succ (ih _)

/-- **Absorption:** passes until one absorbs nothing. The result is the grown range and the entries
that are left. -/
def absorb (r : Span) (es : List Span) : Span × List Span :=
  let once := absorbOnce r es
  if once.2.length < es.length then absorb once.1 once.2 else once
termination_by es.length

/-- Puts a range before the first entry that does not start before it. -/
def place (r : Span) (es : List Span) : List Span :=
  es.takeWhile (·.start < r.start) ++ r :: es.dropWhile (·.start < r.start)

/-- The entries once `r` has absorbed what it overlaps. -/
def mergeInto (es : List Span) (r : Span) : List Span :=
  let absorbed := absorb r es
  place absorbed.1 absorbed.2

/-- The union of `r` with a list of ranges; nothing if `r` overlaps none of them. -/
def union? (es : List Span) (r : Span) : Option (List Span) :=
  if es.any (·.overlaps r) then some (mergeInto es r) else none

def empty : RangeSet := ⟨[]⟩

/-- **Adds a range.** -/
def insert (set : RangeSet) (r : Span) : RangeSet := ⟨mergeInto set.entries r⟩

/-- Adds several ranges, one after the other. -/
def insertAll (set : RangeSet) (ranges : List Span) : RangeSet := ranges.foldl insert set

def ofList (ranges : List Span) : RangeSet := empty.insertAll ranges

def size (set : RangeSet) : Nat := set.entries.length

def isEmpty (set : RangeSet) : Bool := set.entries.isEmpty

end RangeSet

end OperandOrder
