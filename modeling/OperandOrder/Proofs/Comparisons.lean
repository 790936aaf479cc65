import OperandOrder.Parser
import OperandOrder.Proofs.Exchanges
import OperandOrder.Proofs.Integers
import OperandOrder.Proofs.Store.Laying
import OperandOrder.Proofs.Store.Reordering

/-!
# Comparisons of three operands and more

That `a > b` says what `b < a` says is a law of two operands. A chain `a > b > c` is read as
`(a > b) > c`: it compares `c` with a truth value. Its operands are put in order like those of any
other chain, and the one operator that they share is flipped or not flipped for all of them. So a
comparison of three operands or more need not keep its value (`Store.comparison_lost`).

It keeps its value if its operands are *undisturbed* (`Expr.Undisturbed`): none of them moves, or
the operator is an equality and the first two trade places, which leaves the comparison of the first
two what it was. All other nodes keep their value under the laws of arithmetic, so the tree does.
Less would not do: a chain of different names that is disturbed has another value for some integers.
`Store.comparisons_exact` puts the two directions together.
-/

namespace OperandOrder

/-- **Operands whose arrangement is harmless.** Any order will do, none is tried, nothing moves, or
the first two operands of an equality trade places and nothing else moves. -/
def Expr.Undisturbed (policy : Policy) (op : BinaryOp) (es : List Expr) : Prop :=
  OrderFree op es.length ∨ (arrangement policy op es).moved = false ∨
    (op = .eq ∨ op = .ne) ∧ ∃ x y rest, es = x :: y :: rest ∧
      (arrangement policy op es).operands = (y :: x :: rest).map (judged policy)

/-- **A tree of which every chain is undisturbed.** -/
def Expr.UndisturbedBy (policy : Policy) (e : Expr) : Prop :=
  e.Every fun
    | .chain _ op operands => Undisturbed policy op operands
    | _ => True

namespace Interpretation

variable {V : Type} {I : Interpretation V} (policy : Policy)

/-- The first two operands of an equality may trade places. -/
theorem Lawful.fold_front (hI : I.Lawful) {op : BinaryOp} (hop : op = .eq ∨ op = .ne) (x y : V)
    (rest : List V) : I.fold op (y :: x :: rest) = I.fold op (x :: y :: rest) := by
  have hcomm : I.infixed op y x = I.infixed op x y := by
    rcases hop with rfl | rfl
    · exact hI.eq_comm y x
    · exact hI.ne_comm y x
  exact congrArg (rest.foldl (I.infixed op)) hcomm

/-- **What is undisturbed keeps its value.** -/
theorem Lawful.indifferent_of_undisturbed (hI : I.Lawful) {op : BinaryOp} {es : List Expr}
    (h : Expr.Undisturbed policy op es) : I.Indifferent policy op es := by
  rcases h with hfree | hunmoved | ⟨hop, x, y, rest, rfl, hread⟩
  · exact hI.indifferent_of_orderFree policy hfree
  · intro value
    rw [Expr.arrangement, arrange_of_unmoved policy op hunmoved]
  · -- an equality is its own converse, so the swap in front does not flip it
    intro value
    have hconverse : op.converse = op := by rcases hop with rfl | rfl <;> rfl
    rw [Expr.arrangement, op_arrange_of_converse policy hconverse]
    rw [Expr.arrangement] at hread
    rw [hread, List.map_map, List.map_map]
    exact hI.fold_front hop _ _ _

/-- **Where no comparison is disturbed, the value is kept.** -/
theorem Lawful.eval_canonical_of_undisturbed (hI : I.Lawful) {e : Expr}
    (h : e.UndisturbedBy policy) : I.eval (e.canonical policy).expr = I.eval e := by
  refine hI.eval_canonical_of_indifferent policy e (h.imp fun x hx => ?_)
  cases x with
  | chain s op operands => exact hI.indifferent_of_undisturbed policy hx
  | _ => trivial

end Interpretation

namespace Expr

/-- A name as an operand. -/
def ofName (p : Span × String) : Expr := .ident p.1 p.2

variable {policy : Policy} {op : BinaryOp} {ids ids' : List (Span × String)}

theorem undisturbedBy_names {s : Span} (h : Undisturbed policy op (ids.map ofName)) :
    (chain s op (ids.map ofName)).UndisturbedBy policy := by
  refine ⟨h, (everyOf_iff _ _).mpr fun x hx => ?_⟩
  obtain ⟨p, -, rfl⟩ := List.mem_map.mp hx
  trivial

/-- The operands of a chain of names come out as names in another order. -/
theorem exists_names (policy : Policy) (op : BinaryOp) (ids : List (Span × String)) :
    ∃ ids' : List (Span × String), ids'.Perm ids ∧
      (arrangement policy op (ids.map ofName)).operands =
        (ids'.map ofName).map (judged policy) := by
  obtain ⟨ids', hexchanges, hread⟩ :=
    (exchanges_arrange policy op ((ids.map ofName).map (judged policy))).lift
      (judged policy ∘ ofName) List.map_map.symm
  exact ⟨ids', hexchanges.perm, by rw [List.map_map]; exact hread.symm⟩

/-- The order of different names is the order of the operands. -/
theorem eq_of_names (hnodup : (ids.map Prod.snd).Nodup) (hperm : ids'.Perm ids)
    (h : ids'.map Prod.snd = ids.map Prod.snd) : ids' = ids := by
  have hinjective := List.inj_on_of_nodup_map hnodup
  refine List.ext_getElem hperm.length_eq fun i hi hi' => ?_
  refine hinjective (hperm.mem_iff.mp (List.getElem_mem hi)) (List.getElem_mem hi') ?_
  have hget := List.getElem_of_eq h (by rwa [List.length_map])
  rwa [List.getElem_map, List.getElem_map] at hget

/-- The value of a chain of names, before it is put in order and afterwards. -/
theorem fold_names {s : Span} (hread : (arrangement policy op (ids.map ofName)).operands =
      (ids'.map ofName).map (judged policy)) (assign : String → ℤ) :
    (Interpretation.integers assign).eval (chain s op (ids.map ofName)) =
        (Interpretation.integers assign).fold op ((ids.map Prod.snd).map assign) ∧
      (Interpretation.integers assign).eval ((chain s op (ids.map ofName)).canonical policy).expr =
        (Interpretation.integers assign).fold (arrangement policy op (ids.map ofName)).op
          ((ids'.map Prod.snd).map assign) := by
  constructor
  · rw [Interpretation.eval, Interpretation.evalAll_eq_map, List.map_map, List.map_map]
    rfl
  · rw [canonical_chain, canonical_join, Interpretation.eval_join, hread]
    simp only [List.map_map]
    rfl

/-- **A chain of different names is disturbed only at the cost of its value.** -/
theorem undisturbed_of_eval_eq {s : Span} (hop : op.compares = true)
    (hnodup : (ids.map Prod.snd).Nodup) (h : ∀ assign,
      (Interpretation.integers assign).eval ((chain s op (ids.map ofName)).canonical policy).expr =
      (Interpretation.integers assign).eval (chain s op (ids.map ofName))) :
    Undisturbed policy op (ids.map ofName) := by
  by_cases hfew : ids.length < 3
  · exact .inl (.inl (by rwa [List.length_map]))
  -- the operands are names, so the order they come out in is one of names
  obtain ⟨ids', hperm, hread⟩ := exists_names policy op ids
  have hI := Interpretation.arithmetic_integers fun _ => 0
  have hnames := hperm.map Prod.snd
  have hlength : 3 ≤ (ids.map Prod.snd).length := by rw [List.length_map]; omega
  -- if both chains have the same value under every assignment, so have the two folds
  have hagree : ∀ assign : String → ℤ,
      (Interpretation.integers fun _ => 0).fold op ((ids.map Prod.snd).map assign) =
        (Interpretation.integers fun _ => 0).fold (arrangement policy op (ids.map ofName)).op
          ((ids'.map Prod.snd).map assign) := by
    intro assign
    obtain ⟨hgiven, hcanonical⟩ := fold_names (s := s) hread assign
    exact hgiven.symm.trans ((h assign).symm.trans hcanonical)
  have hsame := hI.op_eq_of_fold_eq hop (op_arrange policy op _) hnodup hnames hlength hagree
  rw [show (arrangement policy op (ids.map ofName)).op = op from hsame] at hagree
  rcases hI.eq_or_front_of_fold_eq hop hnodup hnames (by omega) hagree with
    hids | ⟨hconverse, x, y, rest, hxs, hys⟩
  · -- nothing has moved, or a second run would move it again
    obtain rfl := eq_of_names hnodup hperm hids
    have hagain := arrange_arrange policy op ((ids'.map ofName).map (judged policy))
    rw [show (arrange policy op ((ids'.map ofName).map (judged policy))).op = op from hsame,
      show (arrange policy op ((ids'.map ofName).map (judged policy))).operands =
        _ from hread] at hagain
    exact .inr (.inl (congrArg Arrangement.moved hagain))
  · obtain ⟨p, ids, rfl, rfl, hids⟩ := List.map_eq_cons_iff.mp hxs
    obtain ⟨q, ids, rfl, rfl, rfl⟩ := List.map_eq_cons_iff.mp hids
    have hfront : ids' = q :: p :: ids :=
      eq_of_names ((hnames.nodup_iff.mpr hnodup).perm (.of_eq hys))
        (hperm.trans (.swap q p ids)) hys
    exact .inr (.inr
      ⟨BinaryOp.eq_or_ne_of_converse hop hconverse, ofName p, ofName q, ids.map ofName, rfl,
      hread.trans (by rw [hfront]; rfl)⟩)

end Expr

namespace Store

/-- **The value of a text is kept:** its tree has a canonical form, and that has the same value. -/
def KeepsValue (I : Interpretation ℤ) (policy : Policy) (source : String) (dst : Store) : Prop :=
  ∃ t changed v,
    (ofParsed (parse source).expr).1.canonical? policy (ofParsed (parse source).expr).2 dst =
      some (t, changed) ∧
    (ofParsed (parse source).expr).1.eval? I (ofParsed (parse source).expr).2 = some v ∧
    t.1.eval? I t.2 = some v

/-- Whether the value is kept in a store is a matter of the tree. -/
theorem keepsValue_iff {I : Interpretation ℤ} {policy : Policy} {source : String} {dst : Store} :
    KeepsValue I policy source dst ↔
      I.eval ((parse source).expr.canonical policy).expr = I.eval (parse source).expr := by
  have hparsed := tree?_ofParsed (parse source).expr
  obtain ⟨t, ht, hread⟩ := canonical?_of_tree? policy hparsed dst
  have hvalue : (ofParsed (parse source).expr).1.eval? I (ofParsed (parse source).expr).2 =
      some (I.eval (parse source).expr) := by rw [eval?, hparsed, Option.map_some]
  have hvalue' : t.1.eval? I t.2 = some (I.eval ((parse source).expr.canonical policy).expr) := by
    rw [eval?, hread, Option.map_some]
  constructor
  · rintro ⟨t', changed, v, ht', hv, hv'⟩
    obtain ⟨rfl, -⟩ := Prod.mk.inj (Option.some.inj (ht.symm.trans ht'))
    exact Option.some.inj (hvalue'.symm.trans (hv'.trans (hv.symm.trans hvalue)))
  · exact fun h => ⟨t, _, I.eval (parse source).expr, ht, hvalue, hvalue'.trans (congrArg some h)⟩

/-- **Which comparisons keep their value.** Whatever the names stand for, and whatever is made of
calls and other operators, a text keeps its value if its comparisons are undisturbed. For a
comparison of different names this is exact: it keeps its value for all integers only if it is
undisturbed. -/
theorem comparisons_exact (policy : Policy) (source : String) (dst : Store) :
    (∀ I : Interpretation ℤ, I.Arithmetic → (parse source).expr.UndisturbedBy policy →
      KeepsValue I policy source dst) ∧
    ∀ (s : Span) (op : BinaryOp) (ids : List (Span × String)),
      (parse source).expr = .chain s op (ids.map .ofName) → (ids.map Prod.snd).Nodup →
      op.compares = true →
        ((∀ assign, KeepsValue (.integers assign) policy source dst) ↔
          Expr.Undisturbed policy op (ids.map .ofName)) := by
  have hkept : ∀ I : Interpretation ℤ, I.Arithmetic → (parse source).expr.UndisturbedBy policy →
      KeepsValue I policy source dst :=
    fun I hI hstill => keepsValue_iff.mpr (hI.lawful.eval_canonical_of_undisturbed policy hstill)
  refine ⟨hkept, fun s op ids hchain hnodup hop => ⟨fun h => ?_, fun h assign => ?_⟩⟩
  · refine Expr.undisturbed_of_eval_eq (s := s) hop hnodup fun assign => ?_
    have hvalue := keepsValue_iff.mp (h assign)
    rwa [hchain] at hvalue
  · refine hkept _ (Interpretation.arithmetic_integers assign) ?_
    rw [hchain]
    exact Expr.undisturbedBy_names h

/-- `bb == a == cc` comes out as `a == bb == cc`. -/
theorem comparisons_exact_equality : (Interpretation.integers fun _ => 0).Arithmetic ∧
    (parse "bb == a == cc").expr.UndisturbedBy .standard ∧
    KeepsValue (.integers fun _ => 0) .standard "bb == a == cc" empty ∧
    ∀ assign, KeepsValue (.integers assign) .standard "bb == a == cc" empty := by
  have htree : (parse "bb == a == cc").expr = .chain ⟨0, 13⟩ .eq
      ([(⟨0, 2⟩, "bb"), (⟨6, 7⟩, "a"), (⟨11, 13⟩, "cc")].map .ofName) := by decide +kernel
  have hstill : Expr.Undisturbed .standard .eq
      ([(⟨0, 2⟩, "bb"), (⟨6, 7⟩, "a"), (⟨11, 13⟩, "cc")].map .ofName) :=
    .inr (.inr ⟨.inl rfl, _, _, _, rfl, rfl⟩)
  have hall : (parse "bb == a == cc").expr.UndisturbedBy .standard := by
    rw [htree]
    exact Expr.undisturbedBy_names hstill
  obtain ⟨hkept, hexact⟩ := comparisons_exact .standard "bb == a == cc" empty
  have hI := Interpretation.arithmetic_integers fun _ => 0
  exact ⟨hI, hall, hkept _ hI hall, (hexact _ _ _ htree (by decide) rfl).mpr hstill⟩

/-- **A comparison that loses its value.** The order by size exchanges the last two operands of
`a > bb > c` and leaves the operator as it is. -/
theorem comparison_lost :
    let I := Interpretation.integers fun name => if name = "c" then -1 else 1
    let parsed := ofParsed (parse "a > bb > c").expr
    I.Arithmetic ∧ (parse "a > bb > c").errors = [] ∧ parsed.1.eval? I parsed.2 = some 1 ∧
    ((parsed.1.canonical? .standard parsed.2 empty).bind fun out => out.1.1.print? out.1.2) =
      some "a > c > bb" ∧
    ((parsed.1.canonical? .standard parsed.2 empty).bind fun out => out.1.1.eval? I out.1.2) =
      some 0 :=
  ⟨Interpretation.arithmetic_integers _, by decide +kernel, by decide +kernel, by decide +kernel,
    by decide +kernel⟩

end Store

end OperandOrder
