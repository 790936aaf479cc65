import Mathlib.Algebra.Order.Ring.Rat
import Mathlib.Data.Nat.Cast.Order.Ring
import Mathlib.Tactic.NormNum
import OperandOrder.Proofs.RangeSets

/-!
# What a set of ranges covers

Offsets alone do not tell `1..5` and `6..9` from `1..9`: all three offsets in doubt are covered by
both. So what is covered is said of *points*, which are rational numbers, and a range covers the
points between its ends and the ends themselves (`Span.Covers`).

A set comes about by edits: a range is inserted, several are, or the set is collected anew
(`RangeSet.Edit`). Whatever the edits, the set is the one collected from the ranges that have gone
in (`RangeSet.edited_eq_ofList`), so its entries are ordered and do not overlap. What they cover is
what those ranges cover: merging two ranges that overlap covers nothing else (`Span.covers_merge`),
and no range gets lost. `RangeSet.edited_exact` puts this together. Inverted ranges are no exception
to it, but with one of them an entry need not end before the next one begins.

What two ranges are merged to depends on which of them came first, and on those that came before.
The set does not: `RangeSet.ofList_unordered` says so of the order of the ranges and of how often
each of them comes, and of ranges that come as the entries of another set.
-/

namespace OperandOrder

/-! ### Points -/

/-- **The points of a range,** both ends among them. An inverted range has none. -/
def Span.Covers (s : Span) (point : ℚ) : Prop := s.start ≤ point ∧ point ≤ s.stop

namespace Span

theorem Covers.of_contains {outer inner : Span} {point : ℚ} (hcovers : inner.Covers point)
    (h : outer.contains inner = true) : outer.Covers point := by
  obtain ⟨hstart, hstop⟩ := (contains_iff outer inner).mp h
  exact ⟨(Nat.cast_le.mpr hstart).trans hcovers.1, hcovers.2.trans (Nat.cast_le.mpr hstop)⟩

/-- **Merging covers nothing else,** as long as the two ranges overlap. -/
theorem covers_merge {a b : Span} (h : a.overlaps b = true) {point : ℚ} :
    (a.merge b).Covers point ↔ a.Covers point ∨ b.Covers point := by
  constructor
  · rintro ⟨hlow, hhigh⟩
    obtain ⟨hab, hba⟩ := (overlaps_iff a b).mp h
    have hab : (a.start : ℚ) ≤ b.stop := Nat.cast_le.mpr hab
    have hba : (b.start : ℚ) ≤ a.stop := Nat.cast_le.mpr hba
    rw [merge_start, Nat.cast_min, min_le_iff] at hlow
    rw [merge_stop, Nat.cast_max, le_max_iff] at hhigh
    rcases hlow with hlow | hlow <;> rcases hhigh with hhigh | hhigh
    · exact .inl ⟨hlow, hhigh⟩
    · -- between the start of `a` and the end of `b`: behind the end of `a`, it is behind the
      -- start of `b`
      rcases le_total point a.stop with ha | ha
      · exact .inl ⟨hlow, ha⟩
      · exact .inr ⟨hba.trans ha, hhigh⟩
    · rcases le_total point b.stop with hb | hb
      · exact .inr ⟨hlow, hb⟩
      · exact .inl ⟨hab.trans hb, hhigh⟩
    · exact .inr ⟨hlow, hhigh⟩
  · rintro (hcovers | hcovers)
    · exact hcovers.of_contains (merge_contains_left a b)
    · exact hcovers.of_contains (merge_contains_right a b)

end Span

namespace RangeSet

/-- **What is covered is what was covered by the ranges that went in.** -/
theorem covers_ofList (ranges : List Span) (point : ℚ) :
    (∃ e ∈ (ofList ranges).entries, e.Covers point) ↔ ∃ r ∈ ranges, r.Covers point := by
  constructor
  · rintro ⟨e, he, hcovers⟩
    -- every entry covers only points of the ranges, since it has been merged of them
    have hentries : ∀ e ∈ (ofList ranges).entries, e.Covers point →
        ∃ r ∈ ranges, r.Covers point := by
      refine forall_mem_ofList ?_ fun r hr hcovers => ⟨r, hr, hcovers⟩
      intro a b ha hb hoverlaps hmerged
      exact ((Span.covers_merge hoverlaps).mp hmerged).elim ha hb
    exact hentries e he hcovers
  · rintro ⟨r, hr, hcovers⟩
    obtain ⟨e, he, hcontains⟩ := exists_contains_of_mem hr
    exact ⟨e, he, hcovers.of_contains hcontains⟩

/-! ### Edits -/

/-- **The ways to change a set.** -/
inductive Edit where
  | insert (range : Span)
  | extend (ranges : List Span)
  /-- A new set is collected in place of the old one. -/
  | collect (ranges : List Span)

/-- What an edit makes of a set. -/
def Edit.apply (set : RangeSet) : Edit → RangeSet
  | .insert range => set.insert range
  | .extend ranges => set.insertAll ranges
  | .collect ranges => .ofList ranges

/-- The ranges that have gone into the set, once an edit is made. -/
def Edit.record (given : List Span) : Edit → List Span
  | .insert range => given ++ [range]
  | .extend ranges => given ++ ranges
  | .collect ranges => ranges

/-- **The set after some edits,** made one after the other from the empty set on. -/
def edited (edits : List Edit) : RangeSet := edits.foldl Edit.apply empty

/-- The ranges that have gone into it. -/
def recorded (edits : List Edit) : List Span := edits.foldl Edit.record []

theorem insertAll_ofList (given ranges : List Span) :
    (ofList given).insertAll ranges = ofList (given ++ ranges) := by
  rw [ofList, ofList, insertAll, insertAll, insertAll, List.foldl_append]

/-- An edit of a set that was collected gives a set that might have been collected. -/
theorem apply_ofList (given : List Span) (edit : Edit) :
    edit.apply (ofList given) = ofList (edit.record given) := by
  cases edit with
  | insert range => exact insertAll_ofList given [range]
  | extend ranges => exact insertAll_ofList given ranges
  | collect ranges => rfl

/-- **Edits are insertions:** the set is the one collected from all the ranges that have gone in. -/
theorem edited_eq_ofList (edits : List Edit) : edited edits = ofList (recorded edits) := by
  -- said of any ranges that have gone in before, it follows edit by edit
  have hfrom : ∀ given,
      edits.foldl Edit.apply (ofList given) = ofList (edits.foldl Edit.record given) := by
    induction edits with
    | nil => exact fun given => rfl
    | cons edit edits ih =>
      intro given
      rw [List.foldl_cons, List.foldl_cons, apply_ofList, ih]
  exact hfrom []

/-- **Ordered, apart, and exact.** After any edits, with inverted ranges among them or not, the
entries are ordered by start, no two of them overlap, and they cover the points of the ranges
that have gone in and no others. If none of these is inverted, each entry ends before the next
one begins. -/
theorem edited_exact (edits : List Edit) :
    ((edited edits).entries.Pairwise fun a b => a.start ≤ b.start) ∧
    ((edited edits).entries.Pairwise fun a b => a.overlaps b = false) ∧
    (∀ point, (∃ e ∈ (edited edits).entries, e.Covers point) ↔
      ∃ r ∈ recorded edits, r.Covers point) ∧
    ((∀ r ∈ recorded edits, r.start ≤ r.stop) →
      (edited edits).entries.Pairwise fun a b => a.stop < b.start) := by
  rw [edited_eq_ofList]
  obtain ⟨hsorted, hapart⟩ := tidy_ofList (recorded edits)
  exact ⟨hsorted, hapart, covers_ofList (recorded edits), stop_lt_start⟩

/-- Ranges that touch, one that bridges two others, and one of a single offset. -/
def bridging : List Edit :=
  [.insert ⟨8, 9⟩, .collect [⟨5, 7⟩, ⟨1, 3⟩], .insert ⟨3, 5⟩, .extend [⟨8, 8⟩, ⟨6, 6⟩]]

/-- The ranges on either side of the bridge become one with it. -/
theorem edited_exact_bridging : (edited bridging).entries = [⟨1, 7⟩, ⟨8, 8⟩] ∧
    (∀ r ∈ recorded bridging, r.start ≤ r.stop) ∧
    ((edited bridging).entries.Pairwise fun a b => a.stop < b.start) ∧
    ∃ r ∈ recorded bridging, r.Covers (9 / 2) := by
  have hentries : (edited bridging).entries = [⟨1, 7⟩, ⟨8, 8⟩] := by decide +kernel
  have hproper : ∀ r ∈ recorded bridging, r.start ≤ r.stop := by decide
  obtain ⟨-, -, hcovers, hapart⟩ := edited_exact bridging
  refine ⟨hentries, hproper, hapart hproper, (hcovers (9 / 2)).mp ?_⟩
  rw [hentries]
  exact ⟨⟨1, 7⟩, List.mem_cons_self, by norm_num [Span.Covers]⟩

/-! ### The order in which ranges come -/

/-- Ranges that come more than once, or in another order, make no difference. -/
theorem ofList_congr {xs ys : List Span} (hproper : ∀ r ∈ xs, r.start ≤ r.stop)
    (hsame : ∀ r, r ∈ xs ↔ r ∈ ys) : ofList xs = ofList ys := by
  have hproper' : ∀ r ∈ ys, r.start ≤ r.stop := fun r hr => hproper r ((hsame r).mpr hr)
  refine ofList_eq_of_holds hproper hproper' ?_ ?_
  · intro r hr
    exact exists_contains_of_mem ((hsame r).mp hr)
  · intro r hr
    exact exists_contains_of_mem ((hsame r).mpr hr)

/-- **The entries of a set do for the ranges** that it was collected from. -/
theorem ofList_append_entries {xs ys : List Span} (hxs : ∀ r ∈ xs, r.start ≤ r.stop)
    (hys : ∀ r ∈ ys, r.start ≤ r.stop) :
    ofList (xs ++ (ofList ys).entries) = ofList (xs ++ ys) := by
  have hentries : ∀ r ∈ xs ++ (ofList ys).entries, r.start ≤ r.stop :=
    List.forall_mem_append.mpr ⟨hxs, proper_ofList hys⟩
  refine ofList_eq_of_holds hentries (List.forall_mem_append.mpr ⟨hxs, hys⟩) ?_ ?_
  · -- an entry is merged of ranges that have gone into the larger set as well
    refine List.forall_mem_append.mpr ⟨fun r hr => ?_, ?_⟩
    · exact exists_contains_of_mem (List.mem_append_left ys hr)
    · exact contains_of_subset (List.subset_append_right xs ys)
  · refine List.forall_mem_append.mpr ⟨fun r hr => ?_, fun r hr => ?_⟩
    · exact exists_contains_of_mem (List.mem_append_left _ hr)
    · -- the range lies in an entry, and that entry has gone in
      obtain ⟨e, he, hcontains⟩ := exists_contains_of_mem hr
      obtain ⟨e', he', hcontains'⟩ := exists_contains_of_mem (List.mem_append_right xs he)
      exact ⟨e', he', Span.contains_trans hcontains' hcontains⟩

/-- **Sets do not depend on the order of insertion.** The same ranges, none of them inverted, give
the same set in whatever order they come, and however often. And a set that takes in the entries of
another one is the set collected from all the ranges that have gone into either, however the two
have come about. -/
theorem ofList_unordered {xs ys : List Span} (hxs : ∀ r ∈ xs, r.start ≤ r.stop)
    (hys : ∀ r ∈ ys, r.start ≤ r.stop) :
    ((∀ r, r ∈ xs ↔ r ∈ ys) → ofList xs = ofList ys) ∧
    ∀ edits edits', recorded edits = xs → recorded edits' = ys →
      (edited edits).insertAll (edited edits').entries = ofList (xs ++ ys) := by
  refine ⟨ofList_congr hxs, ?_⟩
  rintro edits edits' rfl rfl
  calc (edited edits).insertAll (edited edits').entries
      = (ofList (recorded edits)).insertAll (ofList (recorded edits')).entries := by
        rw [edited_eq_ofList, edited_eq_ofList]
    _ = ofList (recorded edits ++ (ofList (recorded edits')).entries) := insertAll_ofList _ _
    _ = ofList (recorded edits ++ recorded edits') := ofList_append_entries hxs hys

/-- The range that bridges two others comes first, and it comes last. -/
theorem ofList_unordered_bridging :
    ofList [⟨5, 6⟩, ⟨8, 8⟩, ⟨6, 7⟩, ⟨1, 5⟩] = ofList [⟨6, 7⟩, ⟨1, 5⟩, ⟨8, 8⟩, ⟨6, 7⟩, ⟨5, 6⟩] ∧
    (ofList [⟨5, 6⟩, ⟨8, 8⟩, ⟨6, 7⟩, ⟨1, 5⟩]).entries = [⟨1, 7⟩, ⟨8, 8⟩] ∧
    (edited [.extend [⟨5, 6⟩, ⟨8, 8⟩], .insert ⟨6, 7⟩, .insert ⟨1, 5⟩]).insertAll
        (edited [.insert ⟨0, 0⟩, .collect [⟨6, 7⟩, ⟨1, 5⟩, ⟨8, 8⟩, ⟨6, 7⟩, ⟨5, 6⟩]]).entries =
      ofList [⟨5, 6⟩, ⟨8, 8⟩, ⟨6, 7⟩, ⟨1, 5⟩, ⟨6, 7⟩, ⟨1, 5⟩, ⟨8, 8⟩, ⟨6, 7⟩, ⟨5, 6⟩] := by
  have hboth := @ofList_unordered [⟨5, 6⟩, ⟨8, 8⟩, ⟨6, 7⟩, ⟨1, 5⟩]
    [⟨6, 7⟩, ⟨1, 5⟩, ⟨8, 8⟩, ⟨6, 7⟩, ⟨5, 6⟩] (by decide) (by decide)
  refine ⟨hboth.1 fun r => ?_, by decide +kernel, hboth.2 _ _ rfl rfl⟩
  simp only [List.mem_cons, List.not_mem_nil, or_false]
  tauto

end RangeSet

end OperandOrder
