import OperandOrder.Opportunity
import OperandOrder.Proofs.Exactness

/-!
# Three walks over a tree

A tree is walked in three ways: `Expr.canonical` puts all of it in canonical form,
`Expr.reorderWithin` only what a range selects, and `Expr.opportunities` lists the places where
canonical form differs. On the range `Span.everywhere` the three agree:

* `Expr.reorderWithin_everywhere`: reordering everywhere is canonical form. The two treat a node
  with a missing operand differently, one passing it over and the other arranging it; but nothing is
  arranged where an operand is missing, so both put it together again from what becomes of its
  operands.
* `Expr.opportunities_eq_empty_iff`: nothing is shown if and only if canonical form reports no
  change. A change below an infix node is a change of that node, and a change anywhere is a change
  of some infix node.

The offsets of a span fit in 32 bits (`Expr.InBounds`), so `Span.everywhere` misses none.
-/

namespace OperandOrder

namespace Expr

variable (policy : Policy)

/-! ### Reordering everywhere -/

/-- **Every span begins within the limit** of the offsets. -/
def InBounds (e : Expr) : Prop := e.Every fun x => x.span.start ≤ Span.limit

theorem overlaps_everywhere {s : Span} (h : s.start ≤ Span.limit) :
    s.overlaps .everywhere = true :=
  (Span.overlaps_iff s .everywhere).mpr ⟨h, Nat.zero_le _⟩

/-- Where an operand is missing, the operands stay in their places. -/
theorem canonical_join_of_missing (s : Span) (op : BinaryOp) {es : List Expr}
    (h : es.any isMissing = true) :
    (join s op es).canonical policy =
      ⟨join s op (es.map fun e => (e.canonical policy).expr),
        es.any fun e => (e.canonical policy).changed⟩ := by
  have hfixed : isFixed op (es.map (judged policy)) = true := by
    have hmissing : (es.map (judged policy)).any (·.profile.form.isMissing) = true := by
      rw [List.any_map]
      exact h
    rw [isFixed, hmissing, Bool.or_true]
  have hkept : arrangement policy op es = ⟨op, es.map (judged policy), false⟩ :=
    arrange_of_isFixed policy op hfixed
  rw [canonical_join, hkept]
  simp only [List.map_map, Bool.or_false]
  rfl

/-- An infix node that is passed over on the range `everywhere` has a missing operand. -/
theorem any_isMissing_of_not_selected {e : Expr} (hinfixed : e.infixed?.isSome = true)
    (hstart : e.span.start ≤ Span.limit) (h : e.isSelected .everywhere = false) :
    e.operands.any isMissing = true := by
  rw [isSelected, hinfixed, overlaps_everywhere hstart] at h
  simpa using h

/-- Two functions that agree on the members of a list give the same outcomes. -/
theorem outcomes_congr {f g : Expr → Outcome} {es : List Expr} (h : ∀ e ∈ es, f e = g e) :
    es.map (fun e => (f e).expr) = es.map (fun e => (g e).expr) ∧
      es.any (fun e => (f e).changed) = es.any fun e => (g e).changed := by
  have hsame : es.map f = es.map g := List.map_congr_left h
  have hexprs := congrArg (List.map (·.expr)) hsame
  have hflags := congrArg (List.any · (·.changed)) hsame
  simp only [List.map_map, List.any_map] at hexprs hflags
  exact ⟨hexprs, hflags⟩

/-- **Reordering everywhere is canonical form,** also where operands are missing. -/
theorem reorderWithin_everywhere (e : Expr) (hfree : e.PairFree) (hspan : e.InBounds) :
    e.reorderWithin policy .everywhere = e.canonical policy := by
  have hr := descends_reorderWithin policy .everywhere
  have hc := descends_canonical policy
  induction e using induct with
  | absent => rfl
  | error s => rfl
  | literal s kind text => rfl
  | ident s name => rfl
  | call s receiver name args hreceiver hargs =>
    obtain ⟨-, hfree, hfrees⟩ := hfree
    obtain ⟨-, hspan, hspans⟩ := hspan
    rw [everyOf_iff] at hfrees hspans
    obtain ⟨hexprs, hflags⟩ :=
      outcomes_congr fun e he => hargs e he (hfrees e he) (hspans e he)
    rw [hr.call, hc.call, hreceiver hfree hspan, hexprs, hflags]
  | field s receiver name hreceiver => rw [hr.field, hc.field, hreceiver hfree.2 hspan.2]
  | unary s op operand hoperand => rw [hr.unary, hc.unary, hoperand hfree.2 hspan.2]
  | paren s inner hinner => rw [hr.paren, hc.paren, hinner hfree.2 hspan.2]
  | binary s op left right hleft hright =>
    by_cases hselected : (binary s op left right).isSelected .everywhere = true
    · exact reorderWithin_of_selected policy _ hselected
    · have hselected : (binary s op left right).isSelected .everywhere = false := by
        simpa using hselected
      have hmissing : [left, right].any isMissing = true :=
        any_isMissing_of_not_selected rfl hspan.1 hselected
      have hcanonical : (binary s op left right).canonical policy = _ :=
        canonical_join_of_missing policy s op hmissing
      rw [reorderWithin_binary_of_not_selected policy _ hselected,
        hleft hfree.2.1 hspan.2.1, hright hfree.2.2 hspan.2.2, hcanonical]
      simp [join]
  | chain s op operands hoperands =>
    by_cases hselected : (chain s op operands).isSelected .everywhere = true
    · exact reorderWithin_of_selected policy _ hselected
    · have hselected : (chain s op operands).isSelected .everywhere = false := by
        simpa using hselected
      have hmissing : operands.any isMissing = true :=
        any_isMissing_of_not_selected rfl hspan.1 hselected
      obtain ⟨hlength, hfrees⟩ := hfree
      obtain ⟨-, hspans⟩ := hspan
      rw [everyOf_iff] at hfrees hspans
      obtain ⟨hexprs, hflags⟩ :=
        outcomes_congr fun e he => hoperands e he (hfrees e he) (hspans e he)
      rw [reorderWithin_chain_of_not_selected policy _ hselected, hexprs, hflags, canonical_chain,
        canonical_join_of_missing policy s op hmissing]
      -- joining makes a chain again, since there are not two operands
      rw [join_eq_chain s op (by rw [List.length_map]; exact hlength)]
  | conditional s cond yes no hcond hyes hno =>
    obtain ⟨-, hfc, hfy, hfn⟩ := hfree
    obtain ⟨-, hsc, hsy, hsn⟩ := hspan
    rw [hr.conditional, hc.conditional, hcond hfc hsc, hyes hfy hsy, hno hfn hsn]

/-! ### What is shown -/

theorem shownAll_eq_flatMap (parent : Span) (es : List Expr) :
    shownAll policy parent es = es.flatMap (shown policy parent) := by
  induction es with
  | nil => rfl
  | cons e es ih => rw [shownAll, ih, List.flatMap_cons]

/-- What canonical form does not change holds no operand that it changes. -/
theorem unchanged_of_join (s : Span) (op : BinaryOp) {es : List Expr}
    (h : ((join s op es).canonical policy).changed = false) :
    ∀ e ∈ es, (e.canonical policy).changed = false := by
  rw [canonical_join] at h
  have hstill := (Bool.or_eq_false_iff.mp h).1
  intro e he
  simpa using List.any_eq_false.mp hstill e he

/-- **Nothing is shown of a list** whose members canonical form leaves as they are, and only
of such. -/
theorem shownAll_eq_nil_iff {es : List Expr} (parent : Span)
    (h : ∀ e ∈ es, ∀ parent, e.shown policy parent = [] ↔ (e.canonical policy).changed = false) :
    shownAll policy parent es = [] ↔ es.any (fun e => (e.canonical policy).changed) = false := by
  rw [shownAll_eq_flatMap, List.flatMap_eq_nil_iff, List.any_eq_false]
  refine forall₂_congr fun e he => ?_
  rw [h e he parent, Bool.not_eq_true]

/-- An infix node is shown exactly if it is changed, whatever else is shown below it. -/
theorem shownUnder_append_eq_nil_iff {e : Expr} (hinfixed : e.infixed?.isSome = true)
    (parent : Span) {below : List Span} (h : (e.canonical policy).changed = false → below = []) :
    e.shownUnder policy parent ++ below = [] ↔ (e.canonical policy).changed = false := by
  rw [List.append_eq_nil_iff, shownUnder, isOpportunity, hinfixed, Bool.true_and]
  constructor
  · rintro ⟨hnone, -⟩
    by_contra hchanged
    rw [if_pos (by simpa using hchanged)] at hnone
    exact List.cons_ne_nil _ _ hnone
  · intro hunchanged
    exact ⟨by rw [hunchanged]; rfl, h hunchanged⟩

/-- **Nothing is shown of a tree that canonical form leaves as it is, and only of such a tree.** -/
theorem shown_eq_nil_iff (e : Expr) :
    ∀ parent, e.shown policy parent = [] ↔ (e.canonical policy).changed = false := by
  have hc := descends_canonical policy
  induction e using induct with
  | absent => intro parent; exact iff_of_true rfl rfl
  | error s => intro parent; exact iff_of_true rfl rfl
  | literal s kind text => intro parent; exact iff_of_true rfl rfl
  | ident s name => intro parent; exact iff_of_true rfl rfl
  | call s receiver name args hreceiver hargs =>
    intro parent
    rw [shown, hc.call, List.append_eq_nil_iff, Bool.or_eq_false_iff, hreceiver s,
      shownAll_eq_nil_iff policy s hargs]
  | field s receiver name hreceiver => intro parent; rw [shown, hc.field, hreceiver s]
  | unary s op operand hoperand => intro parent; rw [shown, hc.unary, hoperand s]
  | paren s inner hinner => intro parent; rw [shown, hc.paren, hinner s]
  | binary s op left right hleft hright =>
    intro parent
    rw [shown, List.append_assoc]
    refine shownUnder_append_eq_nil_iff policy rfl parent fun hunchanged => ?_
    -- an operand that is changed changes the node
    have hoperands : ∀ e ∈ [left, right], (e.canonical policy).changed = false :=
      unchanged_of_join policy s op hunchanged
    rw [(hleft s).mpr (hoperands left (by simp)), (hright s).mpr (hoperands right (by simp))]
    rfl
  | chain s op operands hoperands =>
    intro parent
    rw [shown]
    refine shownUnder_append_eq_nil_iff policy rfl parent fun hunchanged => ?_
    rw [canonical_chain] at hunchanged
    have hmembers := unchanged_of_join policy s op hunchanged
    rw [shownAll_eq_nil_iff policy s hoperands, List.any_eq_false]
    intro e he
    rw [hmembers e he]
    exact Bool.false_ne_true
  | conditional s cond yes no hcond hyes hno =>
    intro parent
    rw [shown, hc.conditional, List.append_eq_nil_iff, List.append_eq_nil_iff, Bool.or_eq_false_iff,
      Bool.or_eq_false_iff, hcond s, hyes s, hno s]

end Expr

/-! ### Gathered ranges -/

namespace RangeSet

/-- A range that is put in stays in, perhaps grown. -/
theorem insert_entries_ne_nil (set : RangeSet) (r : Span) : (set.insert r).entries ≠ [] := by
  intro h
  have hlater := (List.append_eq_nil_iff.mp h).2
  exact List.cons_ne_nil _ _ hlater

/-- What has been inserted is there. -/
theorem insertAll_entries_eq_nil_iff (set : RangeSet) (ranges : List Span) :
    (set.insertAll ranges).entries = [] ↔ set.entries = [] ∧ ranges = [] := by
  induction ranges generalizing set with
  | nil => simp [insertAll]
  | cons r ranges ih =>
    have hstep : set.insertAll (r :: ranges) = (set.insert r).insertAll ranges := rfl
    rw [hstep, ih]
    simp [insert_entries_ne_nil]

/-- **Ranges that are gathered do not get lost:** the set is empty only if there were none. -/
theorem ofList_eq_empty_iff (ranges : List Span) : ofList ranges = empty ↔ ranges = [] := by
  have hentries : ofList ranges = empty ↔ (ofList ranges).entries = [] := by
    rw [empty, RangeSet.mk.injEq]
  rw [hentries, ofList, insertAll_entries_eq_nil_iff, empty]
  exact and_iff_right rfl

end RangeSet

/-- **Nothing is shown if and only if canonical form changes nothing.** -/
theorem Expr.opportunities_eq_empty_iff (policy : Policy) (e : Expr) :
    e.opportunities policy = .empty ↔ (e.canonical policy).changed = false := by
  rw [Expr.opportunities, RangeSet.ofList_eq_empty_iff, Expr.shown_eq_nil_iff]

end OperandOrder
