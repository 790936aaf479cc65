import OperandOrder.Proofs.Whole

/-!
# The flag says whether the tree differs

Canonical form and reordering within a range both report whether they changed anything. The report
is exact: nothing is reported if and only if the result is the tree that was given
(`Expr.canonical_changed_iff`, `Expr.reorderWithin_changed_iff`).

* **No report, no difference** is an induction: a node whose operands are not reported and whose
  arrangement reports no move is put together from the parts it had. A chain of *two* operands is
  the exception, since it comes out as a binary node; so it is asked that there is none
  (`Expr.PairFree`).
* **No difference, no report** could be argued from a measure that every swap lowers. There is a
  shorter way: both functions reach a fixed point in one run and the second run reports nothing
  (`Expr.canonical_canonical`, `Expr.reorderWithin_reorderWithin`). If the result is the tree that
  was given, then the first run *is* a second run.
-/

namespace OperandOrder

namespace Expr

variable (policy : Policy) (range : Span)

/-- **No chain of two operands.** It would come out as a binary node although nothing moves. -/
def PairFree (e : Expr) : Prop :=
  e.Every fun
    | .chain _ _ operands => operands.length ≠ 2
    | _ => True

/-- A whole tree has chains of three operands or more. -/
theorem pairFree_of_isWhole {names : String → Prop} {literals : LiteralKind → String → Prop}
    (e : Expr) (h : e.IsWhole names literals) : e.PairFree := by
  induction e using induct with
  | absent => trivial
  | error s => trivial
  | literal s kind text => trivial
  | ident s name => trivial
  | call s receiver name args hreceiver hargs =>
    obtain ⟨hwhole, -, hwholes⟩ := h
    refine ⟨trivial, ?_, (everyOf_iff _ _).mpr fun e he =>
      hargs e he (areWhole_iff.mp hwholes e he)⟩
    rcases hwhole with rfl | hwhole
    · trivial
    · exact hreceiver hwhole
  | field s receiver name hreceiver => exact ⟨trivial, hreceiver h.1⟩
  | unary s op operand hoperand => exact ⟨trivial, hoperand h⟩
  | paren s inner hinner => exact ⟨trivial, hinner h⟩
  | binary s op left right hleft hright => exact ⟨trivial, hleft h.1, hright h.2⟩
  | chain s op operands hoperands =>
    obtain ⟨hlength, hwholes⟩ := h
    refine ⟨?_, (everyOf_iff _ _).mpr fun e he => hoperands e he (areWhole_iff.mp hwholes e he)⟩
    change operands.length ≠ 2
    omega
  | conditional s cond yes no hcond hyes hno =>
    exact ⟨trivial, hcond h.1, hyes h.2.1, hno h.2.2⟩

/-- Other than two operands make a chain. -/
theorem join_eq_chain (s : Span) (op : BinaryOp) {es : List Expr} (h : es.length ≠ 2) :
    join s op es = chain s op es := by
  unfold join
  split
  · exact absurd rfl h
  · rfl

/-! ### No report, no difference -/

/-- The members of a list that are not reported are as they were. -/
theorem map_expr_of_unchanged {f : Expr → Outcome} {es : List Expr}
    (h : ∀ e ∈ es, (f e).changed = false → (f e).expr = e)
    (hstill : es.any (fun e => (f e).changed) = false) : es.map (fun e => (f e).expr) = es := by
  have hsame : ∀ e ∈ es, (f e).expr = id e := by
    intro e he
    have hunchanged : (f e).changed = false := by simpa using List.any_eq_false.mp hstill e he
    exact h e he hunchanged
  rw [List.map_congr_left hsame, List.map_id]

/-- What is not reported is as it was, if that is so at infix nodes. -/
theorem Descends.expr_of_unchanged {f : Expr → Outcome} (hf : Descends f)
    (hinfixed : ∀ e : Expr, e.infixed?.isSome = true → e.PairFree →
      (∀ x ∈ e.operands, (f x).changed = false → (f x).expr = x) →
        (f e).changed = false → (f e).expr = e)
    (e : Expr) (hfree : e.PairFree) (h : (f e).changed = false) : (f e).expr = e := by
  -- At infix nodes it is the assumption; elsewhere a node is unchanged if its children are.
  induction e using induct with
  | absent => rw [hf.absent]
  | error s => rw [hf.error]
  | literal s kind text => rw [hf.literal]
  | ident s name => rw [hf.ident]
  | call s receiver name args hreceiver hargs =>
    obtain ⟨-, hfree, hfrees⟩ := hfree
    rw [hf.call] at h ⊢
    obtain ⟨hr, has⟩ := Bool.or_eq_false_iff.mp h
    have hsame : args.map (fun e => (f e).expr) = args :=
      map_expr_of_unchanged (fun e he => hargs e he ((everyOf_iff _ args).mp hfrees e he)) has
    rw [hreceiver hfree hr, hsame]
  | field s receiver name hreceiver =>
    rw [hf.field] at h ⊢
    rw [hreceiver hfree.2 h]
  | unary s op operand hoperand =>
    rw [hf.unary] at h ⊢
    rw [hoperand hfree.2 h]
  | paren s inner hinner =>
    rw [hf.paren] at h ⊢
    rw [hinner hfree.2 h]
  | binary s op left right hleft hright =>
    have hpair : ∀ x ∈ [left, right], (f x).changed = false → (f x).expr = x :=
      forall_mem_pair (hleft hfree.2.1) (hright hfree.2.2)
    exact hinfixed _ rfl hfree hpair h
  | chain s op operands hoperands =>
    have hmembers := (everyOf_iff _ operands).mp hfree.2
    exact hinfixed _ rfl hfree (fun x hx => hoperands x hx (hmembers x hx)) h
  | conditional s cond yes no hcond hyes hno =>
    obtain ⟨-, hc, hy, hn⟩ := hfree
    rw [hf.conditional] at h ⊢
    obtain ⟨hcy, hn'⟩ := Bool.or_eq_false_iff.mp h
    obtain ⟨hc', hy'⟩ := Bool.or_eq_false_iff.mp hcy
    rw [hcond hc hc', hyes hy hy', hno hn hn']

/-- A node that is not reported has its operands where they were. -/
theorem canonical_join_of_unchanged (s : Span) (op : BinaryOp) {es : List Expr}
    (h : ∀ e ∈ es, (e.canonical policy).changed = false → (e.canonical policy).expr = e)
    (hchanged : ((join s op es).canonical policy).changed = false) :
    ((join s op es).canonical policy).expr = join s op es := by
  rw [canonical_join] at hchanged ⊢
  obtain ⟨hstill, hunmoved⟩ := Bool.or_eq_false_iff.mp hchanged
  have hkept : arrangement policy op es = ⟨op, es.map (judged policy), false⟩ :=
    arrange_of_unmoved policy op hunmoved
  have hoperands : (es.map (judged policy)).map (·.item.expr) = es := by
    rw [List.map_map]
    exact map_expr_of_unchanged h hstill
  rw [hkept]
  change join s op ((es.map (judged policy)).map (·.item.expr)) = _
  rw [hoperands]

/-- An infix node that is not reported is put together as it was. -/
theorem canonical_infix_of_unchanged (e : Expr) (hinfixed : e.infixed?.isSome = true)
    (hfree : e.PairFree)
    (hoperands : ∀ x ∈ e.operands, (x.canonical policy).changed = false →
      (x.canonical policy).expr = x)
    (h : (e.canonical policy).changed = false) : (e.canonical policy).expr = e := by
  cases e with
  | binary s op left right => exact canonical_join_of_unchanged policy s op hoperands h
  | chain s op operands =>
    rw [canonical_chain] at h ⊢
    have hsame := canonical_join_of_unchanged policy s op hoperands h
    exact hsame.trans (join_eq_chain s op hfree.1)
  | _ => exact absurd hinfixed Bool.false_ne_true

/-- **Canonical form that is not reported as different is not.** -/
theorem canonical_expr_of_unchanged (e : Expr) (hfree : e.PairFree)
    (h : (e.canonical policy).changed = false) : (e.canonical policy).expr = e :=
  (descends_canonical policy).expr_of_unchanged (canonical_infix_of_unchanged policy) e hfree h

/-- **The flag of canonical form is exact.** -/
theorem canonical_changed_iff (e : Expr) (hfree : e.PairFree) :
    (e.canonical policy).changed = false ↔ (e.canonical policy).expr = e := by
  refine ⟨canonical_expr_of_unchanged policy e hfree, fun h => ?_⟩
  have hagain := canonical_canonical policy e
  rw [h] at hagain
  rw [hagain]

/-! ### Selected nodes stay selected

A second run within the same range meets the same nodes: reordering moves no span, and what was
missing is missing still. -/

theorem isMissing_canonical (e : Expr) : (e.canonical policy).expr.isMissing = e.isMissing := by
  have hform := congrArg Profile.form (outline_canonical policy e)
  change (e.canonical policy).expr.form.outline = e.form.outline at hform
  unfold isMissing
  rw [← Form.isMissing_outline, hform, Form.isMissing_outline]

/-- Nothing goes missing and nothing is found. -/
theorem isMissing_reorderWithin (e : Expr) :
    (e.reorderWithin policy range).expr.isMissing = e.isMissing := by
  cases e with
  | binary s op left right =>
    rw [reorderWithin]
    split
    · exact isMissing_canonical policy _
    · rfl
  | chain s op operands =>
    rw [reorderWithin]
    split
    · exact isMissing_canonical policy _
    · rfl
  | _ => rfl

theorem isSelected_join (s : Span) (op : BinaryOp) (es : List Expr) :
    (join s op es).isSelected range = (s.overlaps range && !es.any isMissing) := by
  simp [isSelected, infixed?, Form.infixed?]

theorem isSelected_chain (s : Span) (op : BinaryOp) (es : List Expr) :
    (chain s op es).isSelected range = (join s op es).isSelected range := by
  rw [isSelected_join]
  rfl

/-- Whether a node is selected is not changed by its canonical form. -/
theorem isSelected_canonical_join (s : Span) (op : BinaryOp) (es : List Expr) :
    ((join s op es).canonical policy).expr.isSelected range = (join s op es).isSelected range := by
  rw [canonical_join, isSelected_join, isSelected_join]
  -- the operands of the arrangement are the canonical forms of the given ones, in another order
  have hperm := (arrangement_perm policy op es).map fun x => x.item.expr.isMissing
  have hforms : (es.map (judged policy)).map (fun x => x.item.expr.isMissing) =
      es.map isMissing := by
    rw [List.map_map]
    exact List.map_congr_left fun e _ => isMissing_canonical policy e
  rw [hforms] at hperm
  have hany : ((arrangement policy op es).operands.map (·.item.expr)).any isMissing =
      es.any isMissing := by
    have hboth := hperm.any_eq (f := id)
    simpa [List.any_map, Function.comp_def] using hboth
  rw [hany]

/-- **Canonical form is selected where the given tree is.** -/
theorem isSelected_canonical (e : Expr) :
    (e.canonical policy).expr.isSelected range = e.isSelected range := by
  cases e with
  | binary s op left right => exact isSelected_canonical_join policy range s op [left, right]
  | chain s op operands =>
    rw [canonical_chain, isSelected_canonical_join, isSelected_chain]
  | _ => rfl

/-- What is done once within a range is not done again. -/
theorem reorderWithin_of_selected_again {e : Expr} (h : e.isSelected range = true) :
    (e.reorderWithin policy range).expr.reorderWithin policy range =
      ⟨(e.reorderWithin policy range).expr, false⟩ := by
  have hagain : (e.canonical policy).expr.isSelected range = true := by
    rw [isSelected_canonical, h]
  rw [reorderWithin_of_selected policy range h, reorderWithin_of_selected policy range hagain,
    canonical_canonical]

/-! ### No difference, no report -/

/-- The members of a list that are settled after one run. -/
theorem settled_map {f : Expr → Outcome} {es : List Expr}
    (h : ∀ e ∈ es, f (f e).expr = ⟨(f e).expr, false⟩) :
    (es.map fun e => (f e).expr).map (fun e => (f e).expr) = es.map (fun e => (f e).expr) ∧
      (es.map fun e => (f e).expr).any (fun e => (f e).changed) = false := by
  constructor
  · rw [List.map_map]
    refine List.map_congr_left fun e he => ?_
    rw [Function.comp_apply, h e he]
  · rw [List.any_map, List.any_eq_false]
    intro e he
    rw [Function.comp_apply, h e he]
    exact Bool.false_ne_true

/-- **Reordering within a range reaches a fixed point in one run,** and a second run says so. -/
theorem reorderWithin_reorderWithin (e : Expr) :
    (e.reorderWithin policy range).expr.reorderWithin policy range =
      ⟨(e.reorderWithin policy range).expr, false⟩ := by
  induction e using induct with
  | absent => rfl
  | error s => rfl
  | literal s kind text => rfl
  | ident s name => rfl
  | call s receiver name args hreceiver hargs =>
    obtain ⟨hsame, hstill⟩ := settled_map hargs
    rw [(descends_reorderWithin policy range).call, (descends_reorderWithin policy range).call,
      hreceiver, hsame, hstill]
    rfl
  | field s receiver name hreceiver => simp only [reorderWithin, hreceiver]
  | unary s op operand hoperand => simp only [reorderWithin, hoperand]
  | paren s inner hinner => simp only [reorderWithin, hinner]
  | binary s op left right hleft hright =>
    by_cases hselected : (binary s op left right).isSelected range = true
    · exact reorderWithin_of_selected_again policy range hselected
    · have hselected : (binary s op left right).isSelected range = false := by simpa using hselected
      -- the operands are missing or present as they were, so the node is passed over again
      have hagain : (binary s op (left.reorderWithin policy range).expr
          (right.reorderWithin policy range).expr).isSelected range = false := by
        rw [← hselected]
        simp [isSelected, infixed?, form, span, operands, isMissing_reorderWithin]
      rw [reorderWithin_binary_of_not_selected policy range hselected,
        reorderWithin_binary_of_not_selected policy range hagain, hleft, hright]
      rfl
  | chain s op operands hoperands =>
    by_cases hselected : (chain s op operands).isSelected range = true
    · exact reorderWithin_of_selected_again policy range hselected
    · have hselected : (chain s op operands).isSelected range = false := by simpa using hselected
      have hagain : (chain s op
          (operands.map fun e => (e.reorderWithin policy range).expr)).isSelected
          range = false := by
        rw [← hselected]
        simp [isSelected, infixed?, form, span, Expr.operands, isMissing_reorderWithin,
          Function.comp_def]
      obtain ⟨hsame, hstill⟩ := settled_map hoperands
      rw [reorderWithin_chain_of_not_selected policy range hselected,
        reorderWithin_chain_of_not_selected policy range hagain, hsame, hstill]
  | conditional s cond yes no hcond hyes hno => simp [reorderWithin, hcond, hyes, hno]

/-- **Reordering that is not reported changes nothing.** -/
theorem reorderWithin_expr_of_unchanged (e : Expr) (hfree : e.PairFree)
    (h : (e.reorderWithin policy range).changed = false) :
    (e.reorderWithin policy range).expr = e := by
  refine (descends_reorderWithin policy range).expr_of_unchanged ?_ e hfree h
  intro e hinfixed hfree hoperands h
  by_cases hselected : e.isSelected range = true
  · rw [reorderWithin_of_selected policy range hselected] at h ⊢
    exact canonical_expr_of_unchanged policy e hfree h
  · have hselected : e.isSelected range = false := by simpa using hselected
    cases e with
    | binary s op left right =>
      rw [reorderWithin_binary_of_not_selected policy range hselected] at h ⊢
      obtain ⟨hl, hr⟩ := Bool.or_eq_false_iff.mp h
      rw [hoperands left (by simp [operands]) hl, hoperands right (by simp [operands]) hr]
    | chain s op es =>
      rw [reorderWithin_chain_of_not_selected policy range hselected] at h ⊢
      exact congrArg (chain s op) (map_expr_of_unchanged hoperands h)
    | _ => exact absurd hinfixed Bool.false_ne_true

/-- **The flag of reordering within a range is exact.** -/
theorem reorderWithin_changed_iff (e : Expr) (hfree : e.PairFree) :
    (e.reorderWithin policy range).changed = false ↔ (e.reorderWithin policy range).expr = e := by
  refine ⟨reorderWithin_expr_of_unchanged policy range e hfree, fun h => ?_⟩
  have hagain := reorderWithin_reorderWithin policy range e
  rw [h] at hagain
  rw [hagain]

end Expr

end OperandOrder
