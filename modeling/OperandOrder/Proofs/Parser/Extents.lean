import OperandOrder.Proofs.Parser.Completeness
import OperandOrder.Proofs.Parser.Filling
import OperandOrder.Proofs.Token.Covering

/-!
# Nodes and the text they stand for

How the spans of a tree lie to each other and to the text is said by `spans_of_parse`. That they
nest is known from the rows of `Nested`, and that names and literals are slices of the text is known
of their tokens. What is left is the exact extent of a node that is read without errors.

Such a tree is derived from its tokens, so two things are shown of derivations. The span of what is
derived runs from the first token to the last one (`Derives.spans`): each production merges a span
in front with a span at the end, and the tokens are in a row, so merging takes the outer ends. And
every node of what is derived is derived itself, from tokens in a row with the others
(`Derives.nodes`). For the operands of one level that needs an argument, since a node may be made of
some operands only. What is made on the way is the tree of the operands so far
(`forall_node_levelTree`), and operands in front are derived from tokens in front.
-/

namespace OperandOrder

/-! ### From the first token to the last -/

/-- From the start of the first token to the end of the last one. -/
def extent : List Token → Span
  | [] => .nowhere
  | t :: ts => ⟨t.span.start, (ts.getLastD t).span.stop⟩

section Extent

variable {ts us : List Token} {lo hi : Nat}

theorem getLastD_stop (hts : ts ≠ []) (d : Nat) :
    (ts.map fun t => t.span.stop).getLastD d = (extent ts).stop := by
  obtain ⟨t, ts, rfl⟩ := List.exists_cons_of_ne_nil hts
  rw [List.map_cons, List.getLastD_cons]
  exact List.getLastD_map

theorem getLastD_append {α : Type} (xs ys : List α) (d : α) :
    (xs ++ ys).getLastD d = ys.getLastD (xs.getLastD d) := by
  simp only [List.getLastD_eq_getLast?, List.getLast?_append, Option.getD_or]

/-- Where tokens end to which others were added. -/
theorem extent_append (hts : ts ≠ []) (us : List Token) :
    extent (ts ++ us) =
      ⟨(extent ts).start, (us.map fun t => t.span.stop).getLastD (extent ts).stop⟩ := by
  obtain ⟨t, ts, rfl⟩ := List.exists_cons_of_ne_nil hts
  have hstop := getLastD_stop (List.cons_ne_nil t (ts ++ us)) 0
  rw [← List.cons_append, List.map_append, getLastD_append,
    getLastD_stop (List.cons_ne_nil t ts)] at hstop
  rw [hstop]
  rfl

/-- Tokens in a row stand where their extent is. -/
theorem extent_bounds (hts : ts ≠ []) (h : InRow lo hi (ts.map Token.span)) :
    InRow lo hi [extent ts] := by
  obtain ⟨t, ts, rfl⟩ := List.exists_cons_of_ne_nil hts
  have hlast : (ts.map Token.span).getLastD t.span = (ts.getLastD t).span := List.getLastD_map
  obtain ⟨hstop, -, hhi, -⟩ := InRow.to_last h
  rw [hlast] at hstop hhi
  exact ⟨h.1, h.2.1.trans hstop, hhi⟩

/-- **Merging takes the outer ends** of tokens in a row. -/
theorem merge_extent (hts : ts ≠ []) (mid : List Token) (hus : us ≠ [])
    (h : InRow lo hi ((ts ++ (mid ++ us)).map Token.span)) :
    (extent ts).merge (extent us) = extent (ts ++ (mid ++ us)) := by
  rw [List.map_append, List.map_append] at h
  obtain ⟨m, hrow, hrest⟩ := InRow.append_iff.mp h
  obtain ⟨n, hmid, hrow'⟩ := InRow.append_iff.mp hrest
  obtain ⟨-, hproper, hstop⟩ := extent_bounds hts hrow
  obtain ⟨hstart, hproper', -⟩ := extent_bounds hus hrow'
  have hbetween : (extent ts).stop ≤ (extent us).start :=
    calc (extent ts).stop ≤ m := hstop
      _ ≤ n := hmid.le
      _ ≤ (extent us).start := hstart
  -- so the start is that of the tokens in front, and the end that of the tokens at the end
  rw [extent_append hts, List.map_append, getLastD_append, getLastD_stop hus, Span.merge,
    Nat.min_eq_left (hproper.trans hbetween), Nat.max_eq_right (hbetween.trans hproper')]

end Extent

/-! ### The span of what is derived -/

/-- A run in a row makes a node from its first operand to its last one. -/
theorem span_run {e : Expr} {run : List Expr} {lo hi : Nat} (op : BinaryOp)
    (h : InRow lo hi (e.span :: run.map Expr.span)) :
    (Expr.join (e.span.merge (run.getLastD e).span) op (e :: run)).span =
        ⟨e.span.start, (run.getLastD e).span.stop⟩ ∧
      e.span.start ≤ (run.getLastD e).span.stop ∧ (run.getLastD e).span.stop ≤ hi := by
  obtain ⟨hstop, hstart, hhi, hrow⟩ := InRow.to_last h
  rw [List.getLastD_map] at hstop hstart hhi hrow
  refine ⟨?_, hrow.le, hhi⟩
  rw [Expr.span_join, Span.merge, Nat.min_eq_left hstart, Nat.max_eq_right hstop]

/-- **The span of a level** runs from its first operand to its last one. -/
theorem span_levelTree {e : Expr} {rest : List (BinaryOp × Expr)} {lo hi : Nat}
    (h : InRow lo hi (e.span :: rest.map fun p => p.2.span)) :
    (levelTree e rest).span =
      ⟨e.span.start, (rest.map fun p => p.2.span.stop).getLastD e.span.stop⟩ := by
  induction e, rest using levelTree.induct generalizing lo with
  | case1 e =>
    rw [levelTree]
    rfl
  | case2 e op x rest run =>
    rename_i ih
    have hsplit : rest = rest.takeWhile (·.1 == op) ++ rest.dropWhile (·.1 == op) :=
      List.takeWhile_append_dropWhile.symm
    have hrun : run = x :: (rest.takeWhile (·.1 == op)).map (·.2) := rfl
    rw [levelTree]
    change (levelTree (.join (e.span.merge (run.getLastD e).span) op (e :: run)) _).span = _
    clear_value run
    generalize rest.dropWhile (·.1 == op) = later at hsplit ih ⊢
    have hspans : ((op, x) :: rest).map (fun p => p.2.span) =
        run.map Expr.span ++ later.map fun p => p.2.span := by
      rw [hsplit, hrun]
      simp
    have hstops : ((op, x) :: rest).map (fun p => p.2.span.stop) =
        run.map (fun y => y.span.stop) ++ later.map fun p => p.2.span.stop := by
      rw [hsplit, hrun]
      simp
    -- the node of the first run stands where its operands do, in front of the later ones
    rw [hspans, ← List.cons_append] at h
    obtain ⟨mid, hfirst, hlater⟩ := InRow.append_iff.mp h
    obtain ⟨hjoined, hproper, hmid⟩ := span_run op hfirst
    have hrow : InRow e.span.start hi
        ((Expr.join (e.span.merge (run.getLastD e).span) op (e :: run)).span ::
          later.map fun p => p.2.span) := by
      rw [hjoined]
      exact ⟨le_refl _, hproper, hlater.mono hmid (le_refl _)⟩
    rw [ih hrow, hjoined, hstops, getLastD_append, List.getLastD_map]

/-- What is said of spans: those of expressions are the extents of their tokens, those of the
operands of a level are in a row and end where the tokens end, and what closes arguments is the
last token. -/
def Symbol.Spanned (lo hi : Nat) (ts : List Token) : (s : Symbol) → s.Value → Prop
  | .tail _, (rest : List (BinaryOp × Expr)) =>
    InRow lo hi (rest.map fun p => p.2.span) ∧
      ∀ d, (rest.map fun p => p.2.span.stop).getLastD d = (ts.map fun t => t.span.stop).getLastD d
  | .args, (as : Arguments) | .list, (as : Arguments) => ∃ us c, ts = us ++ [c] ∧ as.close = c.span
  | .expr, (e : Expr) | .level _, (e : Expr) | .members, (e : Expr) | .primary, (e : Expr) =>
    e.span = extent ts

/-- Only the operands of a level may be derived from no token. -/
theorem Derives.ne_nil {s : Symbol} {ts : List Token} {v : s.Value} (h : Derives s ts v) :
    match s with
    | .tail _ => True
    | _ => ts ≠ [] := by
  have hbegins := h.begins
  cases s with
  | tail k => trivial
  | _ =>
    obtain ⟨t, us, rfl, -⟩ := hbegins
    exact List.cons_ne_nil t us

/-- **What is derived spans its tokens.** -/
theorem Derives.spans {s : Symbol} {ts : List Token} {v : s.Value} (h : Derives s ts v) :
    ∀ {lo hi : Nat}, InRow lo hi (ts.map Token.span) → s.Spanned lo hi ts v := by
  induction h with
  | plain _ ih => exact ih
  | @conditional cs ys ns q l c y n hc _ _ _ hn ihc _ ihn =>
    intro lo hi hts
    have hsplit : cs ++ q :: (ys ++ l :: ns) = cs ++ ((q :: ys ++ [l]) ++ ns) := by simp
    rw [hsplit] at hts ⊢
    have hrow := hts
    rw [List.map_append, List.map_append] at hrow
    have hcspan : c.span = extent cs := ihc hrow.left
    have hnspan : n.span = extent ns := ihn hrow.right.right
    change c.span.merge n.span = _
    rw [hcspan, hnspan]
    exact merge_extent hc.ne_nil _ hn.ne_nil hts
  | @level k ts us e rest _ he hrest ihe ihrest =>
    intro lo hi hts
    rw [List.map_append] at hts
    obtain ⟨mid, hrow, hrow'⟩ := InRow.append_iff.mp hts
    have hespan : e.span = extent ts := ihe hrow
    obtain ⟨hoperands, hstops⟩ := ihrest hrow'
    have hfirst := extent_bounds he.ne_nil hrow
    rw [← hespan] at hfirst
    -- the first operand ends where its tokens do, so the operands are in a row as their tokens are
    have hall : InRow lo hi (e.span :: rest.map fun p => p.2.span) :=
      InRow.append_iff.mpr ⟨mid, hfirst, hoperands⟩
    change (levelTree e rest).span = _
    rw [span_levelTree hall, hstops, extent_append he.ne_nil, hespan]
  | last => exact fun hts => ⟨hts, fun _ => rfl⟩
  | @next k t op ts us e rest _ _ he _ ihe ihrest =>
    intro lo hi hts
    rw [List.map_cons, List.map_append] at hts
    obtain ⟨hstart, hproper, hts⟩ := hts
    obtain ⟨mid, hrow, hrow'⟩ := InRow.append_iff.mp hts
    have hespan : e.span = extent ts := ihe hrow
    obtain ⟨hoperands, hstops⟩ := ihrest hrow'
    have hfirst := extent_bounds he.ne_nil hrow
    rw [← hespan] at hfirst
    have hall : InRow t.span.stop hi (e.span :: rest.map fun p => p.2.span) :=
      InRow.append_iff.mpr ⟨mid, hfirst, hoperands⟩
    refine ⟨hall.mono (hstart.trans hproper) (le_refl _), fun d => ?_⟩
    -- the operator is not the last token
    rw [List.map_cons, List.getLastD_cons, hstops, List.map_cons, List.map_append,
      List.getLastD_cons, getLastD_append, getLastD_stop he.ne_nil, hespan]
  | @unary t op ts e _ he ih =>
    intro lo hi hts
    have hespan : e.span = extent ts := ih hts.2.2
    change t.span.merge e.span = _
    rw [hespan]
    exact merge_extent (List.cons_ne_nil t []) [] he.ne_nil hts
  | operand _ ih => exact ih
  | first _ ih => exact ih
  | @field ts e dot name he _ _ ih =>
    intro lo hi hts
    have hrow := hts
    rw [List.map_append] at hrow
    have hespan : e.span = extent ts := ih hrow.left
    change e.span.merge name.span = _
    rw [hespan]
    exact merge_extent he.ne_nil [dot] (List.cons_ne_nil name []) hts
  | @method ts us e dot name as he _ _ _ ihe ihas =>
    intro lo hi hts
    -- the arguments end with the parenthesis that closes them
    have hrow := hts
    rw [List.map_append] at hrow
    have hespan : e.span = extent ts := ihe hrow.left
    obtain ⟨us, c, rfl, hclose⟩ := ihas hrow.right.2.2.2.2
    change e.span.merge as.close = _
    rw [hespan, hclose]
    exact merge_extent he.ne_nil (dot :: name :: us) (List.cons_ne_nil c []) hts
  | literal _ => exact fun _ => rfl
  | ident _ => exact fun _ => rfl
  | @call t us as _ _ ih =>
    intro lo hi hts
    obtain ⟨us, c, rfl, hclose⟩ := ih hts.2.2
    change t.span.merge as.close = _
    rw [hclose]
    exact merge_extent (List.cons_ne_nil t []) us (List.cons_ne_nil c []) hts
  | @paren o c ts e _ _ _ _ =>
    intro lo hi hts
    exact merge_extent (List.cons_ne_nil o []) ts (List.cons_ne_nil c []) hts
  | @noArgs o c _ _ => exact fun _ => ⟨[o], c, rfl, rfl⟩
  | @someArgs o us as _ _ ih =>
    intro lo hi hts
    obtain ⟨us, c, rfl, hclose⟩ := ih hts.2.2
    exact ⟨o :: us, c, rfl, hclose⟩
  | @lastArg c ts e _ _ _ => exact fun _ => ⟨ts, c, rfl, rfl⟩
  | @nextArg comma ts us e as _ _ _ _ ih =>
    intro lo hi hts
    rw [List.map_append] at hts
    obtain ⟨us, c, rfl, hclose⟩ := ih hts.right.2.2
    exact ⟨ts ++ comma :: us, c, by simp, hclose⟩

/-! ### The nodes of what is derived -/

/-- The operands of a run that is lengthened, or of a new one behind it. -/
theorem Run.mem_operands_extend {run : Run} {op : BinaryOp} {e o : Expr}
    (ho : o ∈ (run.extend op e).operands) : o ∈ run.operands ∨ o = run.close ∨ o = e := by
  cases run with
  | single first =>
    rcases List.mem_cons.mp ho with rfl | ho
    · exact .inl List.mem_cons_self
    · exact .inr (.inr (List.mem_singleton.mp ho))
  | joined op' first others =>
    rw [extend] at ho
    split at ho
    next =>
      rw [operands, ← List.cons_append, List.mem_append, List.mem_singleton] at ho
      exact ho.imp_right .inr
    next =>
      rcases List.mem_cons.mp ho with rfl | ho
      · exact .inr (.inl rfl)
      · exact .inr (.inr (List.mem_singleton.mp ho))

namespace Expr

/-- What holds of a node and of all nodes below it. -/
theorem forall_node {p : Expr → Prop} {e : Expr} (he : p e)
    (h : ∀ child ∈ e.children, ∀ x, child.HasNode x → p x) : ∀ x, e.HasNode x → p x := by
  intro x hx
  rcases hasNode_iff.mp hx with rfl | ⟨child, hchild, hx⟩
  · exact he
  · exact h child hchild x hx

end Expr

/-- The nodes of a run are those of its operands, and the node that it makes. -/
theorem Run.forall_node_close {p : Expr → Prop} {run : Run} (hclose : p run.close)
    (h : ∀ o ∈ run.operands, ∀ x, o.HasNode x → p x) : ∀ x, run.close.HasNode x → p x := by
  cases run with
  | single e => exact h e List.mem_cons_self
  | joined op first others =>
    refine Expr.forall_node hclose ?_
    rw [close, Expr.children_join]
    exact h

/-- **The nodes of a level** are those of its operands, and the trees of the operands in front. -/
theorem forall_node_levelTree {p : Expr → Prop} {e : Expr} {rest : List (BinaryOp × Expr)}
    (he : ∀ x, e.HasNode x → p x) (hrest : ∀ q ∈ rest, ∀ x, q.2.HasNode x → p x)
    (hfront : ∀ done later, rest = done ++ later → p (levelTree e done)) :
    ∀ x, (levelTree e rest).HasNode x → p x := by
  have hroot : p ((Run.single e).extendAll rest).close := by
    rw [Run.close_extendAll]
    exact hfront rest [] (List.append_nil rest).symm
  -- an operand of the run is one of the level, or the tree of those that an earlier run has taken
  have hoperands : ∀ o ∈ ((Run.single e).extendAll rest).operands, ∀ x, o.HasNode x → p x := by
    clear hroot
    induction rest using List.reverseRecOn with
    | nil => exact List.forall_mem_singleton.mpr he
    | append_singleton rest q ih =>
      have hearlier := ih (fun q' hq' => hrest q' (List.mem_append_left _ hq'))
        fun done later hsplit =>
          hfront done (later ++ [q]) (by rw [hsplit, List.append_assoc])
      have hclose : p ((Run.single e).extendAll rest).close := by
        rw [Run.close_extendAll]
        exact hfront rest [q] rfl
      intro o ho
      rw [Run.extendAll, List.foldl_append] at ho
      rcases Run.mem_operands_extend ho with ho | rfl | rfl
      · exact hearlier o ho
      · exact Run.forall_node_close hclose hearlier
      · exact hrest q (List.mem_append_right _ List.mem_cons_self)
  have hnodes := Run.forall_node_close hroot hoperands
  rwa [Run.close_extendAll] at hnodes

/-- Whether an expression is derived from some of the tokens, in a row. -/
def DerivedIn (ts : List Token) (x : Expr) : Prop :=
  ∃ before us after, ts = before ++ (us ++ after) ∧ Derives .expr us x

namespace DerivedIn

variable {ts us : List Token} {x : Expr}

theorem self (h : Derives .expr ts x) : DerivedIn ts x := ⟨[], ts, [], by simp, h⟩

theorem left (h : DerivedIn ts x) (us : List Token) : DerivedIn (ts ++ us) x := by
  obtain ⟨before, vs, after, rfl, hx⟩ := h
  exact ⟨before, vs, after ++ us, by simp, hx⟩

theorem right (h : DerivedIn us x) (ts : List Token) : DerivedIn (ts ++ us) x := by
  obtain ⟨before, vs, after, rfl, hx⟩ := h
  exact ⟨ts ++ before, vs, after, by simp, hx⟩

theorem cons (h : DerivedIn ts x) (t : Token) : DerivedIn (t :: ts) x := h.right [t]

end DerivedIn

/-- Every node is derived from some of the tokens. Levels looser than that of a condition do
not count. -/
def Symbol.Within (ts : List Token) : (s : Symbol) → s.Value → Prop
  | .tail k, (rest : List (BinaryOp × Expr)) =>
    k ≤ 12 → ∀ p ∈ rest, ∀ x, p.2.HasNode x → DerivedIn ts x
  | .args, (as : Arguments) | .list, (as : Arguments) =>
    ∀ e ∈ as.list, ∀ x, e.HasNode x → DerivedIn ts x
  | .level k, (e : Expr) => k ≤ 12 → ∀ x, e.HasNode x → DerivedIn ts x
  | .expr, (e : Expr) | .members, (e : Expr) | .primary, (e : Expr) =>
    ∀ x, e.HasNode x → DerivedIn ts x

namespace Derives

variable {ts : List Token} {e : Expr}

theorem expr_of_level {k : Nat} (h : Derives (.level k) ts e) (hk : 2 ≤ k) (hk' : k ≤ 12) :
    Derives .expr ts e :=
  .plain (level_mono hk hk' h)

theorem expr_of_members (h : Derives .members ts e) : Derives .expr ts e :=
  (operand h).expr_of_level (le_refl 2) (by decide)

/-- **Every node of what is derived is derived itself.** -/
theorem nodes {s : Symbol} {ts : List Token} {v : s.Value} (h : Derives s ts v) :
    s.Within ts v := by
  induction h with
  | plain _ ih => exact ih (le_refl 12)
  -- a node is derived from all the tokens here, and what is below it from some of them in a row
  | @conditional cs ys ns q l c y n hc hq hy hl hn ihc ihy ihn =>
    refine Expr.forall_node (.self (.conditional hc hq hy hl hn)) ?_
    refine List.forall_mem_cons.mpr
      ⟨fun x hx => ?_, Expr.forall_mem_pair (fun x hx => ?_) fun x hx => ?_⟩
    · exact (ihc (le_refl 12) x hx).left _
    · exact (((ihy x hx).left _).cons q).right cs
    · exact ((((ihn x hx).cons l).right ys).cons q).right cs
  | @level k ts us e rest hk he hrest ihe ihrest =>
    intro hk'
    refine forall_node_levelTree (fun x hx => ?_) (fun p hp x hx => ?_) fun done later hsplit => ?_
    · exact (ihe (by omega) x hx).left us
    · exact (ihrest hk' p hp x hx).right ts
    · -- the tree of the operands in front is derived from the tokens in front
      rw [hsplit] at hrest
      obtain ⟨vs, ws, rfl, hdone, -⟩ := tail_split hrest
      have hfront : Derives .expr (ts ++ vs) (levelTree e done) :=
        (level hk he hdone).expr_of_level (by omega) hk'
      rw [← List.append_assoc]
      exact (DerivedIn.self hfront).left ws
  | last => exact fun _ p hp => absurd hp List.not_mem_nil
  | @next k t op ts us e rest ht hop he hrest ihe ihrest =>
    intro hk
    refine List.forall_mem_cons.mpr ⟨fun x hx => ?_, fun p hp x hx => ?_⟩
    · exact ((ihe (by omega) x hx).left us).cons t
    · exact ((ihrest hk p hp x hx).right ts).cons t
  | @unary t op ts e ht he ih =>
    intro hk
    refine Expr.forall_node (.self ((unary ht he).expr_of_level (le_refl 2) hk)) ?_
    exact List.forall_mem_singleton.mpr fun x hx => (ih hk x hx).cons t
  | operand _ ih => exact fun _ => ih
  | first _ ih => exact ih
  | @field ts e dot name he hdot hname ih =>
    refine Expr.forall_node (.self (field he hdot hname).expr_of_members) ?_
    exact List.forall_mem_singleton.mpr fun x hx => (ih x hx).left _
  | @method ts us e dot name as he hdot hname has ihe ihas =>
    refine Expr.forall_node (.self (method he hdot hname has).expr_of_members)
      fun child hchild x hx => ?_
    rcases Expr.mem_children_call.mp hchild with ⟨rfl, -⟩ | hchild
    · exact (ihe x hx).left _
    · exact (((ihas child hchild x hx).cons name).cons dot).right ts
  | @literal t kind ht =>
    exact Expr.forall_node (.self (first (literal ht)).expr_of_members) (List.forall_mem_nil _)
  | @ident t ht =>
    exact Expr.forall_node (.self (first (ident ht)).expr_of_members) (List.forall_mem_nil _)
  | @call t us as ht has ih =>
    refine Expr.forall_node (.self (first (call ht has)).expr_of_members)
      fun child hchild x hx => ?_
    exact (ih child hchild x hx).cons t
  | @paren o c ts e ho he hc ih =>
    refine Expr.forall_node (.self (first (paren ho he hc)).expr_of_members) ?_
    exact List.forall_mem_singleton.mpr fun x hx => ((ih x hx).left [c]).cons o
  | noArgs _ _ => exact fun e he => absurd he List.not_mem_nil
  | @someArgs o us as _ _ ih => exact fun e he x hx => (ih e he x hx).cons o
  | @lastArg c ts e _ _ ih => exact List.forall_mem_singleton.mpr fun x hx => (ih x hx).left [c]
  | @nextArg comma ts us e as _ _ _ ihe ihas =>
    refine List.forall_mem_cons.mpr ⟨fun x hx => (ihe x hx).left _, fun e he x hx => ?_⟩
    exact ((ihas e he x hx).cons comma).right ts

end Derives

/-! ### Trees and texts -/

/-- **A node from its first token to its last one:** the tokens it is derived from are some of all,
in a row. -/
def Expr.SpansTokens (all : List Token) (x : Expr) : Prop :=
  ∃ before ts after first last, all = before ++ (ts ++ after) ∧ Derives .expr ts x ∧
    ts.head? = some first ∧ ts.getLast? = some last ∧ x.span = ⟨first.span.start, last.span.stop⟩

/-- **What is derived from tokens in a row spans them,** from the first to the last. -/
theorem spansTokens_of_derivedIn {all : List Token} {x : Expr} {lo hi : Nat}
    (hall : InRow lo hi (all.map Token.span)) (hx : DerivedIn all x) : x.SpansTokens all := by
  obtain ⟨before, ts, after, rfl, hx⟩ := hx
  obtain ⟨t, us, rfl⟩ := List.exists_cons_of_ne_nil hx.ne_nil
  have hrow := hall
  rw [List.map_append, List.map_append] at hrow
  have hlast : (t :: us).getLast? = some (us.getLastD t) := by
    rw [List.getLast?_cons, List.getLastD_eq_getLast?]
  exact ⟨before, t :: us, after, t, us.getLastD t, rfl, hx, rfl, hlast, hx.spans hrow.right.left⟩

/-- **The spans of a tree that is read.** Whatever the text and its errors, the spans of its nodes
lie within the text, each around those of the children, which are in order; and a name or a literal
is the slice of the text at its span. If there are no errors, every node spans exactly the tokens it
is derived from. -/
theorem spans_of_parse (source : String) :
    (∀ x, (parse source).expr.HasNode x →
      x.span.start ≤ x.span.stop ∧ x.span.stop ≤ Text.width source.toList ∧
        (∀ child ∈ x.children, x.span.contains child.span = true) ∧
          (x.children.map Expr.span).Pairwise fun s s' => s.stop ≤ s'.start) ∧
    (∀ s name, (parse source).expr.HasNode (.ident s name) →
      Text.Slice source.toList s name.toList) ∧
    (∀ s kind text, (parse source).expr.HasNode (.literal s kind text) →
      Text.Slice source.toList s text.toList) ∧
    ((parse source).errors = [] →
      ∀ x, (parse source).expr.HasNode x → x.SpansTokens (lex source).tokens) := by
  -- Nesting and order are a property of the tree alone, and the leaves are tokens. Only what a node
  -- is derived from needs a text without errors.
  have hrow : Row 0 (Text.width source.toList) [(parse source).expr] := row_parse source
  have hnested : (parse source).expr.Nested := hrow.nested _ (List.mem_singleton_self _)
  have hleaves := every_ofToken_parse source
  refine ⟨fun x hx => ?_, fun s name hx => ?_, fun s kind text hx => ?_, fun herrors x hx => ?_⟩
  · obtain ⟨-, hproper, hstop⟩ := hnested.bounds_node hx
    refine ⟨hproper, hstop.trans hrow.bounds.2.2, fun child hchild => ?_,
      (hnested.node hx).pairwise⟩
    obtain ⟨hstart, -, hstop⟩ := hnested.bounds_child hx hchild
    exact (Span.contains_iff _ _).mpr ⟨hstart, hstop⟩
  · obtain ⟨t, ht, -, rfl, rfl⟩ := hleaves.node hx
    exact slice_of_mem_lex ht
  · obtain ⟨t, ht, -, rfl, rfl⟩ := hleaves.node hx
    exact slice_of_mem_lex ht
  · obtain ⟨-, hderives⟩ := derives_of_parse herrors
    exact spansTokens_of_derivedIn (Parser.inOrder_lex source).inRow (hderives.nodes x hx)

/-- Behind a blank, a sum of a call and a field is read without errors, and its nodes span
their tokens. -/
theorem spans_of_parse_sum :
    (parse " f(a) + b.c ").errors = [] ∧ (parse " f(a) + b.c ").expr.span = ⟨1, 11⟩ ∧
      ∀ x, (parse " f(a) + b.c ").expr.HasNode x → x.SpansTokens (lex " f(a) + b.c ").tokens := by
  have herrors : (parse " f(a) + b.c ").errors = [] := by decide +kernel
  obtain ⟨-, -, -, hspans⟩ := spans_of_parse " f(a) + b.c "
  exact ⟨herrors, by decide +kernel, hspans herrors⟩

end OperandOrder
