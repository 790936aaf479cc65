/-!
# Spans

A `Span` is a pair of byte offsets into the text an expression was read from. Nothing here slices
text with a span: spans are compared by length, merged, and tested for overlap. A span may be
inverted (`stop < start`); its length is then zero and `merge` and `overlaps` still make sense.

Offsets that come from a source text have to fit in 32 bits. That limit is checked once, in
`Span.ofBounds?`, and `Span.ofBounds?_eq_ok_iff` says exactly when it is met.
-/

namespace OperandOrder

/-- **A byte range** `start..stop`, the end excluded. -/
structure Span where
  start : Nat
  stop : Nat
  deriving DecidableEq, Repr, Inhabited

namespace Span

/-- The largest offset a span of a source text may hold. -/
def limit : Nat := 4294967295

/-- The span of something that stands nowhere in the source. -/
def nowhere : Span := ⟨0, 0⟩

/-- The empty span at `offset`. -/
def point (offset : Nat) : Span := ⟨offset, offset⟩

/-- The span that overlaps every span of a source text. -/
def everywhere : Span := ⟨0, limit⟩

/-- Number of bytes covered; zero for an inverted span. -/
def length (s : Span) : Nat := s.stop - s.start

/-- Whether no byte is covered. -/
def isEmpty (s : Span) : Bool := s.stop ≤ s.start

/-- Whether `inner` lies entirely inside `outer`. -/
def contains (outer inner : Span) : Bool :=
  outer.start ≤ inner.start && inner.stop ≤ outer.stop

/-- The smallest span that covers both. -/
def merge (a b : Span) : Span := ⟨min a.start b.start, max a.stop b.stop⟩

/-- Whether the two spans meet, ends included: `1..5` and `5..9` do, `1..5` and `6..9` do not. -/
def overlaps (a b : Span) : Bool := a.start ≤ b.stop && b.start ≤ a.stop

/-- The order by start, then by end. -/
def order (a b : Span) : Ordering :=
  (compare a.start b.start).then (compare a.stop b.stop)

/-- The text `start..stop`, both ends in decimal. -/
def text (s : Span) : String := toString s.start ++ ".." ++ toString s.stop

/-! ### Small laws -/

@[simp] theorem point_start (n : Nat) : (point n).start = n := rfl

@[simp] theorem point_stop (n : Nat) : (point n).stop = n := rfl

@[simp] theorem merge_start (a b : Span) : (a.merge b).start = min a.start b.start := rfl

@[simp] theorem merge_stop (a b : Span) : (a.merge b).stop = max a.stop b.stop := rfl

theorem overlaps_iff (a b : Span) :
    a.overlaps b = true ↔ a.start ≤ b.stop ∧ b.start ≤ a.stop := by
  simp [overlaps]

theorem overlaps_comm (a b : Span) : a.overlaps b = b.overlaps a := by
  simp only [overlaps, Bool.and_comm]

theorem contains_iff (outer inner : Span) :
    outer.contains inner = true ↔ outer.start ≤ inner.start ∧ inner.stop ≤ outer.stop := by
  simp [contains]

/-! ### The 32-bit limit -/

/-- Which end of a byte range does not fit in 32 bits. -/
inductive Overflow where
  | start (offset : Nat)
  | stop (offset : Nat)
  deriving DecidableEq, Repr

/-- How an overflow is reported. -/
def Overflow.message : Overflow → String
  | .start offset =>
    "source too large: start offset " ++ toString offset ++ " does not fit in 32 bits"
  | .stop offset =>
    "source too large: end offset " ++ toString offset ++ " does not fit in 32 bits"

/-- **The checked constructor.** The start is looked at before the end. -/
def ofBounds? (start stop : Nat) : Except Overflow Span :=
  if limit < start then .error (.start start)
  else if limit < stop then .error (.stop stop)
  else .ok ⟨start, stop⟩

/-- **A range of bytes has a span** if both of its ends fit in 32 bits. -/
theorem ofBounds?_eq_ok_iff (start stop : Nat) (s : Span) :
    ofBounds? start stop = .ok s ↔ start ≤ limit ∧ stop ≤ limit ∧ s = ⟨start, stop⟩ := by
  unfold ofBounds?
  split
  · simp; omega
  · split
    · simp; omega
    · simp only [Except.ok.injEq]
      constructor
      · rintro rfl
        exact ⟨by omega, by omega, rfl⟩
      · rintro ⟨-, -, rfl⟩
        rfl

end Span

end OperandOrder
