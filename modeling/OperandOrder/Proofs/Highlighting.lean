import OperandOrder.Proofs.Parser.Nesting
import OperandOrder.Proofs.RangeSets

/-!
# What is shown of a text

For an opportunity the span of its parent is shown, so whether it can be seen there depends on how
spans nest. In a tree that was read from a text they do, with errors and without (`row_parse`). So
the ranges shown for a text hold every opportunity, and nothing else has made them what they are:
`highlighting_exact`.
-/

namespace OperandOrder

namespace Expr

variable {policy : Policy} {e : Expr}

/-- What is shown is the span of a node around an opportunity. -/
theorem Nested.of_mem_shown (h : e.Nested) {s : Span} (hs : s ∈ e.shown policy e.span) :
    ∃ y x, e.HasNode y ∧ e.HasNode x ∧ x.isOpportunity policy = true ∧ s = y.span ∧
      s.contains x.span = true := by
  rcases (mem_shown_iff policy).mp hs with ⟨hroot, rfl⟩ | ⟨y, x, hy, hx, hopportunity, rfl⟩
  · exact ⟨e, e, .self e, .self e, hroot, rfl, Span.contains_refl _⟩
  · obtain ⟨hstart, -, hstop⟩ := h.bounds_child hy hx
    exact ⟨y, x, hy, hy.child hx, hopportunity, rfl, (Span.contains_iff _ _).mpr ⟨hstart, hstop⟩⟩

/-- An opportunity lies within a span that is shown. -/
theorem Nested.exists_shown (h : e.Nested) {x : Expr} (hx : e.HasNode x)
    (hopportunity : x.isOpportunity policy = true) :
    ∃ s ∈ e.shown policy e.span, s.contains x.span = true := by
  rcases hx.eq_or_child with rfl | ⟨y, hy, hchild⟩
  · exact ⟨x.span, (mem_shown_iff policy).mpr (.inl ⟨hopportunity, rfl⟩), Span.contains_refl _⟩
  · obtain ⟨hstart, -, hstop⟩ := h.bounds_child hy hchild
    refine ⟨y.span, (mem_shown_iff policy).mpr (.inr ⟨y, x, hy, hchild, hopportunity, rfl⟩), ?_⟩
    exact (Span.contains_iff _ _).mpr ⟨hstart, hstop⟩

/-- **Complete:** every opportunity lies in some range. -/
theorem Nested.exists_range (h : e.Nested) {x : Expr} (hx : e.HasNode x)
    (hopportunity : x.isOpportunity policy = true) :
    ∃ range ∈ (e.opportunities policy).entries, range.contains x.span = true := by
  obtain ⟨s, hs, hcontains⟩ := h.exists_shown hx hopportunity
  obtain ⟨range, hrange, hcontains'⟩ := RangeSet.exists_contains_of_mem hs
  exact ⟨range, hrange, Span.contains_trans hcontains' hcontains⟩

/-- **Sound:** every range holds an opportunity. -/
theorem Nested.exists_opportunity (h : e.Nested) :
    ∀ range ∈ (e.opportunities policy).entries, ∃ x, e.HasNode x ∧ x.isOpportunity policy = true ∧
      range.contains x.span = true := by
  refine RangeSet.forall_mem_ofList ?_ ?_
  · -- what a range holds, a larger one holds
    rintro a b ⟨x, hx, hopportunity, hcontains⟩ - -
    exact ⟨x, hx, hopportunity, Span.contains_trans (Span.merge_contains_left a b) hcontains⟩
  · intro s hs
    obtain ⟨-, x, -, hx, hopportunity, -, hcontains⟩ := h.of_mem_shown hs
    exact ⟨x, hx, hopportunity, hcontains⟩

/-- The spans that are shown are in the tree. -/
theorem Nested.bounds_shown (h : e.Nested) {s : Span} (hs : s ∈ e.shown policy e.span) :
    s.start ≤ s.stop ∧ s.stop ≤ e.span.stop := by
  obtain ⟨y, -, hy, -, -, rfl, -⟩ := h.of_mem_shown hs
  exact (h.bounds_node hy).2

end Expr

/-- **Highlighting is complete and sound.** Whatever the text and its errors, every binary node and
every chain that canonical form changes lies in some range; every range holds such a node; each
range ends before the next one begins; and the ranges lie within the text. -/
theorem highlighting_exact (policy : Policy) (source : String) :
    let e := (parse source).expr
    let found := (e.opportunities policy).entries
    (∀ x, e.HasNode x → x.infixed?.isSome = true → (x.canonical policy).changed = true →
      ∃ range ∈ found, range.contains x.span = true) ∧
    (∀ range ∈ found, ∃ x, e.HasNode x ∧ x.infixed?.isSome = true ∧
      (x.canonical policy).changed = true ∧ range.contains x.span = true) ∧
    (found.Pairwise fun a b => a.stop < b.start) ∧
    ∀ range ∈ found, range.start ≤ range.stop ∧ range.stop ≤ Text.width source.toList := by
  intro e found
  have hrow : Row 0 (Text.width source.toList) [e] := row_parse source
  have hnested : e.Nested := hrow.nested e (List.mem_singleton_self e)
  refine ⟨?_, ?_, ?_, ?_⟩
  · intro x hx hinfixed hchanged
    exact hnested.exists_range hx (Bool.and_eq_true_iff.mpr ⟨hinfixed, hchanged⟩)
  · intro range hrange
    obtain ⟨x, hx, hopportunity, hcontains⟩ := hnested.exists_opportunity range hrange
    obtain ⟨hinfixed, hchanged⟩ := Bool.and_eq_true_iff.mp hopportunity
    exact ⟨x, hx, hinfixed, hchanged, hcontains⟩
  · exact RangeSet.stop_lt_start fun s hs => (hnested.bounds_shown hs).1
  · -- merging two ranges keeps to the bounds that both of them have
    refine RangeSet.forall_mem_ofList ?_ ?_
    · rintro a b ⟨ha, ha'⟩ ⟨hb, hb'⟩ -
      rw [Span.merge_start, Span.merge_stop]
      omega
    · intro s hs
      obtain ⟨hproper, hstop⟩ := hnested.bounds_shown hs
      exact ⟨hproper, hstop.trans hrow.bounds.2.2⟩

/-- A call that is never closed. -/
def unclosed : String := "g(f(bb + a), c, (d * (ccc + e))"

/-- Both ranges are found, although the text ends too early. -/
theorem highlighting_exact_unclosed :
    (parse unclosed).errors.length = 1 ∧
    ((parse unclosed).expr.opportunities .standard).entries = [⟨2, 11⟩, ⟨16, 31⟩] ∧
    ∃ x, (parse unclosed).expr.HasNode x ∧ x.infixed?.isSome = true ∧
      (x.canonical .standard).changed = true ∧ Span.contains ⟨2, 11⟩ x.span = true := by
  have hfound : ((parse unclosed).expr.opportunities .standard).entries = [⟨2, 11⟩, ⟨16, 31⟩] := by
    decide +kernel
  obtain ⟨-, hsound, -⟩ := highlighting_exact .standard unclosed
  exact ⟨by decide +kernel, hfound, hsound ⟨2, 11⟩ (by rw [hfound]; exact List.mem_cons_self)⟩

end OperandOrder
