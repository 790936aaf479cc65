import OperandOrder.Proofs.Nodes
import OperandOrder.Proofs.RangeSets
import OperandOrder.Proofs.Store.Reordering

/-!
# Stricter policies

A policy is as strict as another if it is so in both settings (`Policy.AsStrictAs`). A stricter
policy exempts more, so it does less: what it changes the other changes as well, and what it shows
lies within what the other shows (`Store.stricter_reports_less`).

The two runs cannot be compared step by step, since an operand that stays under the stricter policy
is a barrier that the other run does not have. What can be compared is where they stop: operands
that are in order under the looser policy are in order under the stricter one
(`Arrangement.InOrder.of_stricter`). So a node whose operands do not move under the looser policy is
a node whose operands do not move under the stricter one, and a tree is changed if the operands of
any node of it move.
-/

namespace OperandOrder

/-- The settings by how many literals on the right have to stay. -/
def RightLiterals.strictness : RightLiterals → Nat
  | .all => 0
  | .allButBooleanAndNull => 1
  | .none => 2

/-- A stricter setting keeps what the other keeps. -/
theorem RightLiterals.keeps_of_le {a b : RightLiterals} (h : a.strictness ≤ b.strictness)
    {kind : LiteralKind} (hkeeps : a.keeps kind = true) : b.keeps kind = true := by
  cases a with
  | all => exact absurd hkeeps Bool.false_ne_true
  | allButBooleanAndNull =>
    cases b with
    | all => exact absurd h (by decide)
    | allButBooleanAndNull => exact hkeeps
    | none => rfl
  | none =>
    cases b with
    | all => exact absurd h (by decide)
    | allButBooleanAndNull => exact absurd h (by decide)
    | none => rfl

/-- The settings by how many literals have to stay wherever they are. -/
def BothLiterals.strictness : BothLiterals → Nat
  | .all => 0
  | .none => 1

/-- What is at least as strict as the setting that moves no literal is that setting. -/
theorem BothLiterals.eq_none_of_le {a b : BothLiterals} (h : a.strictness ≤ b.strictness)
    (ha : a = .none) : b = .none := by
  subst ha
  cases b with
  | all => exact absurd h (by decide)
  | none => rfl

namespace Policy

/-- **At least as strict in both settings.** -/
structure AsStrictAs (p q : Policy) : Prop where
  right : q.rightLiterals.strictness ≤ p.rightLiterals.strictness
  both : q.bothLiterals.strictness ≤ p.bothLiterals.strictness

/-- No policy is stricter than the one that moves the fewest operands. -/
theorem conservative_asStrictAs (q : Policy) : conservative.AsStrictAs q where
  right := by cases hright : q.rightLiterals <;> decide
  both := by cases hboth : q.bothLiterals <;> decide

namespace AsStrictAs

variable {p q : Policy} (h : p.AsStrictAs q) {op : BinaryOp}

include h

/-! ### What is exempt stays exempt -/

theorem exempts {f : Form} (hexempt : q.exempts op f = true) : p.exempts op f = true := by
  simp only [Policy.exempts, Bool.or_eq_true, Bool.and_eq_true, beq_iff_eq] at hexempt ⊢
  exact hexempt.imp_left fun ⟨hnone, hliteral⟩ =>
    ⟨BothLiterals.eq_none_of_le h.both hnone, hliteral⟩

/-- A stricter policy exempts no less on the right. -/
theorem exemptsRight {f : Form} (hexempt : q.exemptsRight op f = true) :
    p.exemptsRight op f = true := by
  simp only [Policy.exemptsRight, Bool.or_eq_true, Option.any_eq_true] at hexempt ⊢
  rcases hexempt with (hcall | hexempt) | ⟨kind, hkind, hkeeps⟩
  · exact .inl (.inl hcall)
  · exact .inl (.inr (h.exempts hexempt))
  · exact .inr ⟨kind, hkind, RightLiterals.keeps_of_le h.right hkeeps⟩

/-- A stricter policy exempts no fewer pairs. -/
theorem exemptsPair {left right : Form} (hexempt : q.exemptsPair op left right = true) :
    p.exemptsPair op left right = true := by
  simp only [Policy.exemptsPair, Bool.or_eq_true] at hexempt ⊢
  rcases hexempt with ((hcalls | hleft) | hright) | hright
  · exact .inl (.inl (.inl hcalls))
  · exact .inl (.inl (.inr (h.exempts hleft)))
  · exact .inl (.inr (h.exempts hright))
  · exact .inr (h.exemptsRight hright)

/-! ### What stays in place stays in place -/

theorem swapsFront {left right : Profile} (hstays : q.swapsFront op left right = false) :
    p.swapsFront op left right = false := by
  rw [Policy.swapsFront, Bool.and_eq_false_iff, Bool.not_eq_false'] at hstays ⊢
  exact hstays.imp_right h.exemptsPair

/-- A call that stays stays under a stricter policy. -/
theorem sinksBack {left right : Profile} (hstays : q.sinksBack op left right = false) :
    p.sinksBack op left right = false := by
  simp only [Policy.sinksBack, Bool.and_eq_false_iff, Bool.not_eq_false'] at hstays ⊢
  rcases hstays with (hcalls | hleft) | hright
  · exact .inl (.inl hcalls)
  · exact .inl (.inr (h.exempts hleft))
  · exact .inr (h.exempts hright)

/-- An operand that is held in place is held under a stricter policy. -/
theorem movable {x : Profile} (hstays : q.movable op x = false) : p.movable op x = false := by
  simp only [Policy.movable, Bool.and_eq_false_iff, Bool.not_eq_false'] at hstays ⊢
  rcases hstays with (hcall | hexempt) | hexempt
  · exact .inl (.inl hcall)
  · exact .inl (.inr (h.exempts hexempt))
  · exact .inr (h.exemptsRight hexempt)

/-- An operand that outgrows nothing outgrows nothing under a stricter policy. -/
theorem outgrows {left right : Profile} (hstays : q.outgrows op left right = false) :
    p.outgrows op left right = false := by
  simp only [Policy.outgrows, Bool.and_eq_false_iff] at hstays ⊢
  rcases hstays with (hleft | hright) | hsmaller
  · exact .inl (.inl (h.movable hleft))
  · exact .inl (.inr (h.movable hright))
  · exact .inr hsmaller

end AsStrictAs

end Policy

variable {p q : Policy}

/-- **Operands in order are in order under a stricter policy.** -/
theorem Arrangement.InOrder.of_stricter {α : Type} {op : BinaryOp} {xs : List (Operand α)}
    (h : p.AsStrictAs q) (hxs : InOrder q op xs) : InOrder p op xs where
  front x y rest hfront := h.swapsFront (hxs.front x y rest hfront)
  calls hlength := (hxs.calls hlength).imp fun _ _ hstays => h.sinksBack hstays
  sizes hlength := (hxs.sizes hlength).imp fun _ _ hstays => h.outgrows hstays

/-- **What the looser policy does not move the stricter one does not move.** -/
theorem arrange_unmoved_of_stricter {α : Type} {op : BinaryOp} {xs : List (Operand α)}
    (h : p.AsStrictAs q) (hunmoved : (arrange q op xs).moved = false) :
    (arrange p op xs).moved = false := by
  by_cases hfixed : isFixed op xs = true
  · rw [arrange_of_isFixed p op hfixed]
  · -- the looser policy is done with these operands, so they are in order
    have hinOrder := inOrder_arrange q op (by simpa using hfixed)
    rw [arrange_of_unmoved q op hunmoved] at hinOrder
    rw [arrange_of_inOrder p op (hinOrder.of_stricter h)]

namespace Expr

variable {e : Expr}

/-- **What moves under the stricter policy moves under the looser one.** -/
theorem moves_of_stricter (h : p.AsStrictAs q) (hmoves : e.moves p = true) : e.moves q = true := by
  rw [moves] at hmoves ⊢
  cases hop : e.infixed? with
  | none =>
    rw [hop] at hmoves
    exact absurd hmoves Bool.false_ne_true
  | some op =>
    rw [hop] at hmoves
    by_contra hstays
    have hunmoved := arrange_unmoved_of_stricter h (Bool.not_eq_true _ ▸ hstays)
    exact Bool.false_ne_true (hunmoved.symm.trans hmoves)

/-- **What the stricter policy changes the looser one changes.** -/
theorem changed_of_stricter (h : p.AsStrictAs q) (hchanged : (e.canonical p).changed = true) :
    (e.canonical q).changed = true := by
  obtain ⟨x, hx, hmoves⟩ := (changed_iff p e).mp hchanged
  exact (changed_iff q e).mpr ⟨x, hx, moves_of_stricter h hmoves⟩

theorem isOpportunity_of_stricter (h : p.AsStrictAs q) (hp : e.isOpportunity p = true) :
    e.isOpportunity q = true := by
  rw [isOpportunity, Bool.and_eq_true] at hp ⊢
  exact hp.imp_right (changed_of_stricter h)

/-- **What the stricter policy shows the looser one shows.** -/
theorem shown_subset_of_stricter (h : p.AsStrictAs q) (parent : Span) :
    e.shown p parent ⊆ e.shown q parent := by
  intro s hs
  -- what is shown depends on which nodes are opportunities, and there are no fewer of them
  rcases (mem_shown_iff p).mp hs with ⟨hroot, hs⟩ | ⟨y, x, hy, hx, hopportunity, hs⟩
  · exact (mem_shown_iff q).mpr (.inl ⟨isOpportunity_of_stricter h hroot, hs⟩)
  · exact (mem_shown_iff q).mpr (.inr ⟨y, x, hy, hx, isOpportunity_of_stricter h hopportunity, hs⟩)

end Expr

namespace Store

/-- **One policy reports no more of a stored tree than another:** both have an answer; a change
under the first is a change under the second; and every range shown under the first lies within a
range shown under the second. -/
structure ReportsWithin (src : Store) (r : Ref) (p q : Policy) : Prop where
  changed : ∀ dst dst' : Store, ∃ (t t' : Store × Ref) (changed changed' : Bool),
    src.canonical? p r dst = some (t, changed) ∧ src.canonical? q r dst' = some (t', changed') ∧
      (changed = true → changed' = true)
  shown : ∃ found found' : RangeSet,
    src.opportunities? p r = some found ∧ src.opportunities? q r = some found' ∧
      ∀ s ∈ found.entries, ∃ s' ∈ found'.entries, s'.contains s = true

/-- The stricter policy reports no more than the looser one. -/
theorem reportsWithin_of_stricter {src : Store} {r : Ref} {e : Expr} (he : src.tree? r = some e)
    (h : p.AsStrictAs q) : src.ReportsWithin r p q where
  changed dst dst' := by
    obtain ⟨t, ht, -⟩ := canonical?_of_tree? p he dst
    obtain ⟨t', ht', -⟩ := canonical?_of_tree? q he dst'
    exact ⟨t, t', _, _, ht, ht', Expr.changed_of_stricter h⟩
  shown := by
    refine ⟨e.opportunities p, e.opportunities q, ?_, ?_, ?_⟩
    · rw [opportunities?, he, Option.map_some]
    · rw [opportunities?, he, Option.map_some]
    · exact RangeSet.contains_of_subset (Expr.shown_subset_of_stricter h e.span)

/-- **A stricter policy never does more,** and the most conservative one reports only what every
policy reports. The spans of the tree may be anything. -/
theorem stricter_reports_less {src : Store} {r : Ref} (hsrc : src.WellFormed) (hr : src.Holds r) :
    (∀ p q : Policy, p.AsStrictAs q → src.ReportsWithin r p q) ∧
      ∀ q : Policy, src.ReportsWithin r .conservative q := by
  obtain ⟨e, he⟩ := exists_tree? hsrc hr
  exact ⟨fun p q h => reportsWithin_of_stricter he h,
    fun q => reportsWithin_of_stricter he q.conservative_asStrictAs⟩

/-- A sum under three policies, the loosest last. -/
theorem stricter_reports_less_sample : sample.WellFormed ∧ sample.Holds (some 3) ∧
    Policy.standard.AsStrictAs ⟨.all, .all⟩ ∧ sample.ReportsWithin (some 3) .standard ⟨.all, .all⟩ ∧
    sample.ReportsWithin (some 3) .conservative .standard := by
  have hlooser : Policy.standard.AsStrictAs ⟨.all, .all⟩ := ⟨by decide, by decide⟩
  obtain ⟨hstricter, hconservative⟩ :=
    @stricter_reports_less sample (some 3) (by decide) (by decide)
  exact ⟨by decide, by decide, hlooser, hstricter _ _ hlooser, hconservative .standard⟩

end Store

end OperandOrder
