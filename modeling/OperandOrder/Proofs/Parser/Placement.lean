import OperandOrder.Proofs.Evenness
import OperandOrder.Proofs.Opportunities
import OperandOrder.Proofs.Parentheses
import OperandOrder.Proofs.Parser.Derived

/-!
# Where derived trees stand

The span of a derived tree is merged from the spans of its tokens, so whatever holds of these and is
kept by merging holds of every node (`Derives.every_span`).

If the tokens are those of an output that was put down somewhere, then a tree that is derived from
them stands exactly where its own output stands: `Derives.placed`. Hence its operands are as long as
they are broad, which is what makes a second run see what was printed. `parse_indented` says all
there is to say about reading a printed tree behind an indentation.
-/

namespace OperandOrder

open Fragment

/-! ### Spans of nodes -/

section Spans

variable (p : Span → Prop)

/-- The spans of all the nodes that a derivation stands for are of a kind. -/
def Symbol.EverySpan : (s : Symbol) → s.Value → Prop
  | .tail _, (rest : List (BinaryOp × Expr)) => ∀ q ∈ rest, q.2.Every fun x => p x.span
  | .args, (as : Arguments) | .list, (as : Arguments) =>
    (∀ e ∈ as.list, e.Every fun x => p x.span) ∧ p as.close
  | .expr, (e : Expr) | .level _, (e : Expr) | .members, (e : Expr) | .primary, (e : Expr) =>
    e.Every fun x => p x.span

variable {p}

/-- What holds of the spans of operands, and of the union of two spans, holds throughout the tree of
a level. -/
theorem every_span_levelTree (hmerge : ∀ a b, p a → p b → p (a.merge b)) {k : Nat} {e : Expr}
    {rest : List (BinaryOp × Expr)} (hrank : e.form.rank ≤ k)
    (hlevels : ∀ q ∈ rest, q.1.level = k + 1) (he : e.Every fun x => p x.span)
    (hrest : ∀ q ∈ rest, q.2.Every fun x => p x.span) :
    (levelTree e rest).Every fun x => p x.span := by
  refine levelTree_elim (motive := fun _ x => x.Every fun x => p x.span) hrank hlevels he ?_
  intro done later x op y run hsplit hx _
  have hrun : ∀ z ∈ y :: run, z.Every fun x => p x.span :=
    fun z hz => hrest _ (mem_of_run hsplit z hz)
  have hlast : (y :: run).getLastD x ∈ y :: run := by
    rw [List.getLastD_cons]
    exact List.getLastD_mem_cons
  refine Expr.every_join.mpr ⟨?_, List.forall_mem_cons.mpr ⟨hx, hrun⟩⟩
  rw [Expr.span_join]
  exact hmerge _ _ hx.self (hrun _ hlast).self

/-- **Spans are merged from those of the tokens.** -/
theorem Derives.every_span (hnowhere : p .nowhere) (hmerge : ∀ a b, p a → p b → p (a.merge b))
    {s : Symbol} {ts : List Token} {v : s.Value} (h : Derives s ts v) (hts : ∀ t ∈ ts, p t.span) :
    s.EverySpan p v := by
  -- The span of a node is merged from those at its two ends, and only a receiver that is not there
  -- is nowhere.
  induction h with
  | plain _ ih => exact ih hts
  | conditional _ _ _ _ _ ihc ihy ihn =>
    simp only [List.forall_mem_append, List.forall_mem_cons] at hts
    obtain ⟨hcs, -, hys, -, hns⟩ := hts
    have hc := ihc hcs
    have hn := ihn hns
    exact ⟨hmerge _ _ hc.self hn.self, hc, ihy hys, hn⟩
  | level _ he hrest ihe ihrest =>
    obtain ⟨hts, hus⟩ := List.forall_mem_append.mp hts
    exact every_span_levelTree hmerge he.rank (fun q hq => (hrest.rank q hq).1) (ihe hts)
      (ihrest hus)
  | last => exact fun q hq => absurd hq List.not_mem_nil
  | next _ _ _ _ ihe ihrest =>
    simp only [List.forall_mem_append, List.forall_mem_cons] at hts
    obtain ⟨-, hts, hus⟩ := hts
    exact List.forall_mem_cons.mpr ⟨ihe hts, ihrest hus⟩
  | unary _ _ ih =>
    obtain ⟨ht, hts⟩ := List.forall_mem_cons.mp hts
    have he := ih hts
    exact ⟨hmerge _ _ ht he.self, he⟩
  | operand _ ih => exact ih hts
  | first _ ih => exact ih hts
  | field _ _ _ ih =>
    simp only [List.forall_mem_append, List.forall_mem_cons] at hts
    obtain ⟨hts, -, hname, -⟩ := hts
    have he := ih hts
    exact ⟨hmerge _ _ he.self hname, he⟩
  | method _ _ _ _ ihe ihas =>
    simp only [List.forall_mem_append, List.forall_mem_cons] at hts
    obtain ⟨hts, -, -, hus⟩ := hts
    have he := ihe hts
    obtain ⟨has, hclose⟩ := ihas hus
    exact ⟨hmerge _ _ he.self hclose, he, (Expr.everyOf_iff _ _).mpr has⟩
  | literal _ => exact hts _ List.mem_cons_self
  | ident _ => exact hts _ List.mem_cons_self
  | call _ _ ih =>
    obtain ⟨ht, hus⟩ := List.forall_mem_cons.mp hts
    obtain ⟨has, hclose⟩ := ih hus
    exact ⟨hmerge _ _ ht hclose, hnowhere, (Expr.everyOf_iff _ _).mpr has⟩
  | paren _ _ _ ih =>
    simp only [List.forall_mem_append, List.forall_mem_cons] at hts
    obtain ⟨ho, hts, hc, -⟩ := hts
    exact ⟨hmerge _ _ ho hc, ih hts⟩
  | noArgs _ _ =>
    simp only [List.forall_mem_cons] at hts
    exact ⟨fun e he => absurd he List.not_mem_nil, hts.2.1⟩
  | someArgs _ _ ih => exact ih (List.forall_mem_cons.mp hts).2
  | lastArg _ _ ih =>
    simp only [List.forall_mem_append, List.forall_mem_cons] at hts
    exact ⟨List.forall_mem_singleton.mpr (ih hts.1), hts.2.1⟩
  | nextArg _ _ _ ihe ihas =>
    simp only [List.forall_mem_append, List.forall_mem_cons] at hts
    obtain ⟨hts, -, hus⟩ := hts
    obtain ⟨has, hclose⟩ := ihas hus
    exact ⟨List.forall_mem_cons.mpr ⟨ihe hts, has⟩, hclose⟩

end Spans

/-- What is read without errors has its spans within the limit. -/
theorem inBounds_parse {source : String} (h : (parse source).errors = []) :
    (parse source).expr.InBounds := by
  obtain ⟨-, he⟩ := derives_of_parse h
  refine he.every_span (p := fun s => s.start ≤ Span.limit) (Nat.zero_le _) ?_ fun t ht =>
    start_le_of_mem_lex ht
  intro a b ha _
  exact (Nat.min_le_left _ _).trans ha

/-- **A source without errors is reordered all over:** no span of it is out of the range. -/
theorem reorderWithin_parse (policy : Policy) {source : String} (h : (parse source).errors = []) :
    (parse source).expr.reorderWithin policy .everywhere = (parse source).expr.canonical policy :=
  Expr.reorderWithin_everywhere policy _ (Expr.pairFree_of_isWhole _ (printable_parse h))
    (inBounds_parse h)

/-! ### Trees that stand where their output stands -/

/-- **A tree that stands where its output stands,** if that begins at an offset; and so do its
operands, as far as their lengths show it. -/
structure Expr.PlacedAt (i : Nat) (e : Expr) : Prop where
  start : e.span.start = i
  stop : e.span.stop = i + width e.fragments
  even : e.Even

/-- What stands where its output stands, and has its parentheses, is as long as it is broad. -/
theorem Expr.PlacedAt.length_eq {i : Nat} {e : Expr} (h : e.PlacedAt i)
    (hexplicit : e.explicit = e) : e.span.length = e.breadth := by
  have hbreadth := (Expr.width_fragments_eq_iff e).mpr hexplicit
  rw [Span.length, h.start, h.stop, hbreadth, Nat.add_sub_cancel_left]

/-- A node from its first part to its last one. -/
theorem placedAt_of_merge {i : Nat} {e : Expr} {s t : Span} (hspan : e.span = s.merge t)
    (hfirst : s.start = i) (horder : i ≤ t.start) (hstops : s.stop ≤ t.stop)
    (hlast : t.stop = i + width e.fragments) (heven : e.Even) : e.PlacedAt i := by
  refine ⟨?_, ?_, heven⟩
  · rw [hspan, Span.merge_start]
    omega
  · rw [hspan, Span.merge_stop]
    omega

theorem width_tailFragments_cons (op : BinaryOp) (e : Expr) (rest : List (BinaryOp × Expr)) :
    width (tailFragments ((op, e) :: rest)) =
      op.gap + (width e.fragments + width (tailFragments rest)) := by
  rw [tailFragments_cons, width_append, width_append]
  rfl

/-- Operands behind their operators, each where its output stands. -/
def TailPlacedAt : Nat → List (BinaryOp × Expr) → Prop
  | _, [] => True
  | o, (op, e) :: rest =>
    e.PlacedAt (o + op.gap) ∧ TailPlacedAt (o + op.gap + width e.fragments) rest

/-- A tail is placed in two parts, the second where the first ends. -/
theorem tailPlacedAt_append {o : Nat} {xs ys : List (BinaryOp × Expr)}
    (h : TailPlacedAt o (xs ++ ys)) :
    TailPlacedAt o xs ∧ TailPlacedAt (o + width (tailFragments xs)) ys := by
  induction xs generalizing o with
  | nil => exact ⟨trivial, h⟩
  | cons p xs ih =>
    obtain ⟨op, e⟩ := p
    obtain ⟨he, hxs⟩ := h
    obtain ⟨hxs, hys⟩ := ih hxs
    refine ⟨⟨he, hxs⟩, ?_⟩
    rwa [width_tailFragments_cons, ← Nat.add_assoc, ← Nat.add_assoc]

/-- The last operand of a run ends where the run does. -/
theorem TailPlacedAt.last {o : Nat} {op : BinaryOp} {y : Expr} {run : List Expr}
    (h : TailPlacedAt o ((y :: run).map (op, ·))) (x : Expr) :
    o ≤ ((y :: run).getLastD x).span.start ∧
      ((y :: run).getLastD x).span.stop = o + width (tailFragments ((y :: run).map (op, ·))) := by
  -- the last operand ends where the text of the run ends
  induction run generalizing o x y with
  | nil =>
    obtain ⟨hy, -⟩ := h
    have hstart := hy.start
    have hstop := hy.stop
    have hwidth := width_tailFragments_cons op y []
    rw [tailFragments_nil, width_nil] at hwidth
    change o ≤ y.span.start ∧ y.span.stop = o + width (tailFragments [(op, y)])
    omega
  | cons z run ih =>
    obtain ⟨-, hrun⟩ := h
    obtain ⟨hstart, hstop⟩ := ih hrun y
    have hlast : (y :: z :: run).getLastD x = (z :: run).getLastD y := rfl
    have hwidth := width_tailFragments_cons op y ((z :: run).map (op, ·))
    change o ≤ _ ∧ _ = o + width (tailFragments ((op, y) :: (z :: run).map (op, ·)))
    rw [hlast, hwidth]
    omega

/-- Each operand of a tail is placed somewhere. -/
theorem TailPlacedAt.placed {o : Nat} {rest : List (BinaryOp × Expr)} (h : TailPlacedAt o rest) :
    ∀ p ∈ rest, ∃ o', p.2.PlacedAt o' := by
  induction rest generalizing o with
  | nil => exact nofun
  | cons p rest ih =>
    obtain ⟨op, e⟩ := p
    exact List.forall_mem_cons.mpr ⟨⟨_, h.1⟩, ih h.2⟩

/-- **A level stands where its output stands.** -/
theorem placedAt_levelTree {o k : Nat} {e : Expr} {rest : List (BinaryOp × Expr)}
    (hrank : e.form.rank ≤ k) (hranks : ∀ p ∈ rest, p.1.level = k + 1 ∧ p.2.form.rank < k + 1)
    (hexplicit : e.explicit = e) (hexplicits : ∀ p ∈ rest, p.2.explicit = p.2)
    (he : e.PlacedAt o) (hrest : TailPlacedAt (o + width e.fragments) rest) :
    (levelTree e rest).PlacedAt o := by
  -- the output of a part of the level is known on the way, and that it has its parentheses
  have hall : (levelTree e rest).PlacedAt o ∧ (levelTree e rest).explicit = levelTree e rest ∧
      (levelTree e rest).fragments = e.fragments ++ tailFragments rest := by
    refine levelTree_elim (motive := fun done x => x.PlacedAt o ∧ x.explicit = x ∧
      x.fragments = e.fragments ++ tailFragments done) hrank (fun p hp => (hranks p hp).1)
      ⟨he, hexplicit, (List.append_nil _).symm⟩ ?_
    rintro done later x op y run hsplit ⟨hx, hxexplicit, hxfragments⟩ hwraps
    have hwraps' := not_wraps_of_run hranks hsplit
    have hrun : TailPlacedAt (o + width x.fragments) ((y :: run).map (op, ·)) := by
      rw [hsplit] at hrest
      have hbehind := (tailPlacedAt_append (tailPlacedAt_append hrest).2).1
      rwa [hxfragments, width_append, ← Nat.add_assoc]
    have hfragments := Expr.fragments_join_of_not_wraps
      (x.span.merge ((y :: run).getLastD x).span) hwraps hwraps'
    have hexplicits' : ∀ z ∈ y :: run, z.explicit = z :=
      fun z hz => hexplicits _ (mem_of_run hsplit z hz)
    refine ⟨?_, ?_, ?_⟩
    · have hplaced : ∀ z ∈ y :: run, ∃ o', z.PlacedAt o' := by
        intro z hz
        exact hrun.placed (op, z) (List.mem_map_of_mem hz)
      have heven : Expr.Even
          (.join (x.span.merge ((y :: run).getLastD x).span) op (x :: y :: run)) := by
        refine Expr.every_join.mpr ⟨?_, ?_⟩
        · rw [Expr.operands_join]
          refine List.forall_mem_cons.mpr ⟨hx.length_eq hxexplicit, fun z hz => ?_⟩
          obtain ⟨o', ho'⟩ := hplaced z hz
          exact ho'.length_eq (hexplicits' z hz)
        · refine List.forall_mem_cons.mpr ⟨hx.even, fun z hz => ?_⟩
          obtain ⟨o', ho'⟩ := hplaced z hz
          exact ho'.even
      obtain ⟨hstart, hstop⟩ := hrun.last x
      have hxstop := hx.stop
      have hwidth := congrArg width hfragments
      rw [width_append] at hwidth
      exact placedAt_of_merge (Expr.span_join _ _ _) hx.start (by omega) (by omega) (by omega) heven
    · exact Expr.explicit_join_eq_self hxexplicit hwraps hexplicits' hwraps'
    · rw [hfragments, hxfragments, tailFragments_append, List.append_assoc]
  exact hall.1

/-- **What is derived stands where its output stands.** Of arguments it is only asked that they are
even, and that the parenthesis behind them closes their output. -/
def Symbol.PlacedAt (i : Nat) : (s : Symbol) → s.Value → Prop
  | .tail _, (rest : List (BinaryOp × Expr)) => TailPlacedAt i rest
  | .args, (as : Arguments) => (∀ e ∈ as.list, e.Even) ∧ i ≤ as.close.start ∧
    as.close.stop = i + width (Symbol.args.output as)
  | .list, (as : Arguments) => (∀ e ∈ as.list, e.Even) ∧ i ≤ as.close.start ∧
    as.close.stop = i + width (Symbol.list.output as)
  | .expr, (e : Expr) | .level _, (e : Expr) | .members, (e : Expr) | .primary, (e : Expr) =>
    e.PlacedAt i

/-- **A tree that is derived from the tokens of its output** stands where these stand. -/
theorem Derives.placed {s : Symbol} {ts : List Token} {v : s.Value} (h : Derives s ts v) :
    ∀ {i : Nat}, ts = tokensAt i (s.output v) → s.PlacedAt i v := by
  -- in each case the tokens are cut where the output of the production is
  induction h with
  | plain _ ih => exact ih
  | @conditional cs ys ns q l c y n hc _ hy _ _ ihc ihy ihn =>
    intro i hts
    have hfragments := Expr.fragments_conditional_of_not_wraps (c.span.merge n.span)
      hc.condition_not_wraps y n
    rw [Symbol.output, hfragments] at hts
    obtain ⟨hcs, hts⟩ := tokensAt_split hts hc.length_eq
    obtain ⟨hys, hts⟩ := tokensAt_split (tokensAt_between hts) hy.length_eq
    have hns := tokensAt_between hts
    obtain ⟨hstart, hcstop, hceven⟩ : Expr.PlacedAt _ _ := ihc hcs
    obtain ⟨-, -, hyeven⟩ : Expr.PlacedAt _ _ := ihy hys
    obtain ⟨hnstart, hnstop, hneven⟩ : Expr.PlacedAt _ _ := ihn hns
    have hwidth := congrArg width hfragments
    simp only [width_append] at hwidth
    exact placedAt_of_merge rfl hstart (by omega) (by omega) (by omega)
      ⟨List.forall_mem_nil _, hceven, hyeven, hneven⟩
  | level _ he hrest ihe ihrest =>
    intro i hts
    rw [Symbol.output, fragments_levelTree he.rank hrest.rank] at hts
    obtain ⟨hts, hus⟩ := tokensAt_split hts he.length_eq
    exact placedAt_levelTree he.rank hrest.rank he.explicit hrest.explicit (ihe hts) (ihrest hus)
  | last => exact fun _ => trivial
  | next _ _ he _ ihe ihrest =>
    intro i hts
    rw [Symbol.output, tailFragments_cons] at hts
    obtain ⟨hts, hus⟩ := tokensAt_split (tokensAt_between hts) he.length_eq
    exact ⟨ihe hts, ihrest hus⟩
  | @unary t op ts e _ he ih =>
    intro i hts
    have hfragments :=
      Expr.fragments_unary_of_not_wraps (t.span.merge e.span) op he.operand_not_wraps
    rw [Symbol.output, hfragments] at hts
    obtain ⟨hstart, hstop, hts⟩ := tokensAt_cons hts
    have hgap := congrArg List.length (Expr.words_signGap op e.form)
    rw [← List.nil_append ts] at hts
    obtain ⟨-, hts⟩ := tokensAt_split hts hgap.symm
    obtain ⟨hestart, hestop, heven⟩ : Expr.PlacedAt _ _ := ih hts
    have hwidth := congrArg width hfragments
    rw [width_cons, width_append] at hwidth
    exact placedAt_of_merge rfl hstart (by omega) (by omega) (by omega)
      ⟨List.forall_mem_nil _, heven⟩
  | operand _ ih => exact ih
  | first _ ih => exact ih
  | @field ts e dot name he _ _ ih =>
    intro i hts
    have hfragments := Expr.fragments_field_of_not_wraps (e.span.merge name.span)
      he.receiver_not_wraps name.text
    rw [Symbol.output, hfragments] at hts
    obtain ⟨hts, hmember⟩ := tokensAt_split hts he.length_eq
    obtain ⟨-, -, hmember⟩ := tokensAt_cons hmember
    obtain ⟨hnstart, hnstop, -⟩ := tokensAt_cons hmember
    obtain ⟨hstart, hstop, heven⟩ : Expr.PlacedAt _ _ := ih hts
    have hwidth := congrArg width hfragments
    rw [width_append, width_cons _ [.text name.text]] at hwidth
    exact placedAt_of_merge rfl hstart (by omega) (by omega) (by omega)
      ⟨List.forall_mem_nil _, heven⟩
  | @method ts us e dot name as he _ _ has ihe ihas =>
    intro i hts
    have hfragments := Expr.fragments_method_of_not_wraps (e.span.merge as.close)
      he.ne_absent he.receiver_not_wraps name.text as.list
    rw [Symbol.output, hfragments] at hts
    obtain ⟨hts, hmember⟩ := tokensAt_split hts he.length_eq
    obtain ⟨-, -, hmember⟩ := tokensAt_cons hmember
    obtain ⟨-, -, hus⟩ := tokensAt_cons hmember
    obtain ⟨hstart, hstop, heven⟩ : Expr.PlacedAt _ _ := ihe hts
    obtain ⟨hevens, hcstart, hcstop⟩ := ihas hus
    have hwidth := congrArg width hfragments
    rw [width_append, width_cons, width_cons (.text name.text)] at hwidth
    rw [Symbol.output] at hcstop
    exact placedAt_of_merge rfl hstart (by omega) (by omega) (by omega)
      ⟨List.forall_mem_nil _, heven, (Expr.everyOf_iff _ _).mpr hevens⟩
  | literal _ =>
    intro i hts
    obtain ⟨hstart, hstop, -⟩ := tokensAt_cons hts
    exact ⟨hstart, hstop, List.forall_mem_nil _⟩
  | ident _ =>
    intro i hts
    obtain ⟨hstart, hstop, -⟩ := tokensAt_cons hts
    exact ⟨hstart, hstop, List.forall_mem_nil _⟩
  | @call t us as _ has ih =>
    intro i hts
    have hfragments := output_plainCall (t.span.merge as.close) t.text as
    rw [Symbol.output, hfragments] at hts
    obtain ⟨hstart, hstop, hus⟩ := tokensAt_cons hts
    obtain ⟨hevens, hcstart, hcstop⟩ := ih hus
    have hwidth := congrArg width hfragments
    rw [width_cons] at hwidth
    exact placedAt_of_merge rfl hstart (by omega) (by omega) (by omega)
      ⟨List.forall_mem_nil _, List.forall_mem_nil _, (Expr.everyOf_iff _ _).mpr hevens⟩
  | @paren o c ts e _ he _ ih =>
    intro i hts
    have hfragments : (Expr.paren (o.span.merge c.span) e).fragments =
        .text "(" :: (e.fragments ++ [.text ")"]) := by
      rw [Expr.fragments]
      rfl
    rw [Symbol.output, hfragments] at hts
    obtain ⟨hstart, hstop, hts⟩ := tokensAt_cons hts
    obtain ⟨hts, hclose⟩ := tokensAt_split hts he.length_eq
    obtain ⟨hcstart, hcstop, -⟩ := tokensAt_cons hclose
    obtain ⟨-, -, heven⟩ : Expr.PlacedAt _ _ := ih hts
    have hwidth := congrArg width hfragments
    rw [width_cons, width_append] at hwidth
    exact placedAt_of_merge rfl hstart (by omega) (by omega) (by omega)
      ⟨List.forall_mem_nil _, heven⟩
  | noArgs _ _ =>
    intro i hts
    obtain ⟨-, -, hts⟩ := tokensAt_cons hts
    obtain ⟨hcstart, hcstop, -⟩ := tokensAt_cons hts
    refine ⟨List.forall_mem_nil _, ?_, ?_⟩
    · exact (Nat.le_add_right i _).trans hcstart.ge
    · rw [hcstop]
      rfl
  | @someArgs o us as _ _ ih =>
    intro i hts
    obtain ⟨-, -, hts⟩ := tokensAt_cons hts
    obtain ⟨hevens, hcstart, hcstop⟩ := ih hts
    refine ⟨hevens, by omega, ?_⟩
    rw [hcstop, output_args, width_cons _ (Symbol.list.output as), Nat.add_assoc]
  | @lastArg c ts e he _ ih =>
    intro i hts
    rw [output_lastArg] at hts
    obtain ⟨hts, hclose⟩ := tokensAt_split hts he.length_eq
    obtain ⟨hcstart, hcstop, -⟩ := tokensAt_cons hclose
    obtain ⟨-, -, heven⟩ : Expr.PlacedAt _ _ := ih hts
    refine ⟨List.forall_mem_singleton.mpr heven, ?_, ?_⟩
    · exact (Nat.le_add_right i _).trans hcstart.ge
    · rw [output_lastArg, width_append, ← Nat.add_assoc]
      exact hcstop
  | @nextArg comma ts us e as he _ has ihe ihas =>
    intro i hts
    have houtput := output_nextArg e has.list_ne_nil
    rw [houtput] at hts
    obtain ⟨hts, hlater⟩ := tokensAt_split hts he.length_eq
    obtain ⟨-, -, hus⟩ := tokensAt_cons hlater
    rw [tokensAt] at hus
    obtain ⟨-, -, heven⟩ : Expr.PlacedAt _ _ := ihe hts
    obtain ⟨hevens, hcstart, hcstop⟩ := ihas hus
    refine ⟨List.forall_mem_cons.mpr ⟨heven, hevens⟩, ?_, ?_⟩
    · change i ≤ as.close.start
      omega
    · change as.close.stop = _
      rw [houtput, width_append, width_cons, width_cons .space, width_space, hcstop]
      omega

/-! ### Reading a printed tree -/

/-- **A printed tree behind its indentation** is read without errors, as the tree with its
parentheses put in, and the operands of what is read are as long as they are broad. -/
theorem parse_indented {blanks : List Char} (hblanks : ∀ c ∈ blanks, Lexeme.isBlank c = true)
    {e : Expr} (he : e.Printable) (hwidth : Text.width (blanks ++ e.print.toList) ≤ Span.limit)
    {source : String} (hsource : source = String.ofList (blanks ++ e.print.toList)) :
    (parse source).errors = [] ∧ (parse source).expr.bare = e.explicit.bare ∧
      (parse source).expr.Even := by
  have hlex : lex source = ⟨tokensAt (Text.width blanks) e.fragments, []⟩ := by
    rw [hsource]
    exact lex_indented hblanks he hwidth
  have hwords : (lex source).tokens.map Token.word = words e.fragments := by
    rw [hlex]
    exact map_word_tokensAt _ _
  obtain ⟨e', he'⟩ := regains e he _ hwords
  obtain ⟨herrors, hexpr⟩ := parse_of_derives (by rw [hlex]) he'.derives.expr
  have hfragments : e'.fragments = e.fragments := by
    rw [← Expr.fragments_bare e', he'.bare, Expr.fragments_bare, Expr.fragments_explicit]
  -- the tokens are those of the output of the tree that is read
  have hplaced : e'.PlacedAt (Text.width blanks) :=
    he'.derives.expr.placed (by rw [Symbol.output, hfragments, hlex])
  rw [hexpr]
  exact ⟨herrors, he'.bare, hplaced.even⟩

end OperandOrder
