import OperandOrder.Printer
import OperandOrder.Proofs.Trees

/-!
# Trees with their parentheses

`Expr.explicit` puts a parenthesis into a tree wherever one is printed that is not there, that is,
at each child position with `Position.wraps`. `Expr.bare` takes the places of the nodes out of a
tree. The output of a tree tells neither of the two apart from the tree itself
(`Expr.fragments_explicit`, `Expr.fragments_bare`).
-/

namespace OperandOrder

/-- A child with a parenthesis around it, if its position asks for one. -/
def Position.mark (position : Position) (form : Form) (e : Expr) : Expr :=
  if position.wraps form then .paren .nowhere e else e

/-- No position wraps a parenthesis. -/
theorem Position.wraps_plain (position : Position) : position.wraps .plain = false := by
  cases position <;> rfl

namespace Expr

/-! ### Parentheses put in -/

mutual

/-- **A tree with a parenthesis at each position that asks for one.** -/
def explicit : Expr → Expr
  | .absent => .absent
  | .error s => .error s
  | .literal s kind text => .literal s kind text
  | .ident s name => .ident s name
  | .call s receiver name args =>
    .call s (Position.receiver.mark receiver.form receiver.explicit) name (explicitAll args)
  | .field s receiver name =>
    .field s (Position.receiver.mark receiver.form receiver.explicit) name
  | .unary s op operand => .unary s op (Position.unaryOperand.mark operand.form operand.explicit)
  | .paren s inner => .paren s inner.explicit
  | .binary s op left right =>
    .binary s op ((Position.operand op true).mark left.form left.explicit)
      ((Position.operand op false).mark right.form right.explicit)
  | .chain s op operands => .chain s op (explicitOperands op true operands)
  | .conditional s cond yes no =>
    .conditional s (Position.condition.mark cond.form cond.explicit) yes.explicit no.explicit

/-- The same for the arguments of a call. -/
def explicitAll : List Expr → List Expr
  | [] => []
  | e :: es => e.explicit :: explicitAll es

/-- The same for the operands of a chain. -/
def explicitOperands (op : BinaryOp) (leftmost : Bool) : List Expr → List Expr
  | [] => []
  | e :: es =>
    (Position.operand op leftmost).mark e.form e.explicit :: explicitOperands op false es

end

theorem length_explicitAll (es : List Expr) : (explicitAll es).length = es.length := by
  induction es with
  | nil => rfl
  | cons e es ih => rw [explicitAll, List.length_cons, ih, List.length_cons]

@[simp] theorem form_explicit (e : Expr) : e.explicit.form = e.form := by
  cases e with
  | call s receiver name args => exact congrArg Form.call (length_explicitAll args)
  | _ => rfl

/-- A parenthesis that is put in is printed as one that is printed around. -/
theorem wrap_mark (position : Position) {form : Form} {e : Expr} (h : e.form = form) :
    Fragment.wrap position (position.mark form e).form (position.mark form e).fragments =
      Fragment.wrap position form e.fragments := by
  unfold Position.mark
  by_cases hwraps : position.wraps form = true
  · -- the parenthesis is printed once, as a node of the tree instead of around it
    rw [if_pos hwraps]
    unfold Fragment.wrap
    have hparen : (paren .nowhere e).form = .plain := rfl
    rw [if_pos hwraps, hparen, position.wraps_plain, if_neg Bool.false_ne_true, fragments]
  · rw [if_neg hwraps, h]

/-- An absent receiver stays absent, and no other child becomes so. -/
theorem mark_eq_absent_iff (position : Position) (e : Expr) :
    position.mark e.form e.explicit = .absent ↔ e = .absent := by
  have hexplicit : e.explicit = .absent ↔ e = .absent := by cases e <;> simp [explicit]
  unfold Position.mark
  split
  next hwraps =>
    refine ⟨nofun, ?_⟩
    rintro rfl
    -- no position wraps what is not there
    cases position <;> exact nomatch hwraps
  next => exact hexplicit

/-- Where a parenthesis is put in, no two signs would have met. -/
theorem signGap_mark (op : UnaryOp) (operand : Expr) :
    signGap op (Position.unaryOperand.mark operand.form operand.explicit).form =
      signGap op operand.form := by
  unfold Position.mark
  split
  next hwraps =>
    cases hform : operand.form with
    | unary op' =>
      -- a sign behind a sign is set apart by a gap, not by parentheses
      rw [hform] at hwraps
      exact nomatch hwraps
    | _ => simp [signGap, form]
  next => rw [form_explicit]

/-- The output of a call, with a receiver or without one. -/
theorem fragments_call (s : Span) (receiver : Expr) (name : String) (args : List Expr) :
    (call s receiver name args).fragments =
      (if receiver = .absent then []
        else Fragment.wrap .receiver receiver.form receiver.fragments ++ [.text "."]) ++
        ([.text name] ++ ([.text "("] ++ (argumentFragments true args ++ [.text ")"]))) := by
  cases receiver <;> simp [fragments]

/-- Arguments are printed the same with all parentheses put in. -/
theorem argumentFragments_explicitAll (es : List Expr)
    (h : ∀ e ∈ es, e.explicit.fragments = e.fragments) (first : Bool) :
    argumentFragments first (explicitAll es) = argumentFragments first es := by
  induction es generalizing first with
  | nil => rfl
  | cons e es ih =>
    rw [explicitAll, argumentFragments, argumentFragments, h e (by simp),
      ih fun x hx => h x (List.mem_cons_of_mem e hx)]

/-- Operands are printed the same with all parentheses put in. -/
theorem operandFragments_explicitOperands (op : BinaryOp) (es : List Expr)
    (h : ∀ e ∈ es, e.explicit.fragments = e.fragments) (leftmost : Bool) :
    operandFragments op leftmost (explicitOperands op leftmost es) =
      operandFragments op leftmost es := by
  induction es generalizing leftmost with
  | nil => rfl
  | cons e es ih =>
    rw [explicitOperands, operandFragments, operandFragments, wrap_mark _ (form_explicit e),
      h e (by simp), ih fun x hx => h x (List.mem_cons_of_mem e hx)]

/-- **Parentheses that are printed anyway** do not show. -/
theorem fragments_explicit (e : Expr) : e.explicit.fragments = e.fragments := by
  -- where a mark is added, the printer would have printed parentheses
  induction e using induct with
  | absent => rfl
  | error s => rfl
  | literal s kind text => rfl
  | ident s name => rfl
  | call s receiver name args hreceiver hargs =>
    rw [explicit, fragments_call, fragments_call, wrap_mark _ (form_explicit receiver), hreceiver,
      argumentFragments_explicitAll args hargs]
    simp only [mark_eq_absent_iff]
  | field s receiver name hreceiver =>
    rw [explicit, fragments, fragments, wrap_mark _ (form_explicit receiver), hreceiver]
  | unary s op operand hoperand =>
    rw [explicit, fragments, fragments, wrap_mark _ (form_explicit operand), hoperand, signGap_mark]
  | paren s inner hinner => rw [explicit, fragments, fragments, hinner]
  | binary s op left right hleft hright =>
    rw [explicit, fragments, fragments, wrap_mark _ (form_explicit left),
      wrap_mark _ (form_explicit right), hleft, hright]
  | chain s op operands hoperands =>
    rw [explicit, fragments, fragments, operandFragments_explicitOperands op operands hoperands]
  | conditional s cond yes no hcond hyes hno =>
    rw [explicit, fragments, fragments, wrap_mark _ (form_explicit cond), hcond, hyes, hno]

/-! ### Places taken out -/

mutual

/-- **A tree without the places of its nodes.** -/
def bare : Expr → Expr
  | .absent => .absent
  | .error _ => .error .nowhere
  | .literal _ kind text => .literal .nowhere kind text
  | .ident _ name => .ident .nowhere name
  | .call _ receiver name args => .call .nowhere receiver.bare name (bareAll args)
  | .field _ receiver name => .field .nowhere receiver.bare name
  | .unary _ op operand => .unary .nowhere op operand.bare
  | .paren _ inner => .paren .nowhere inner.bare
  | .binary _ op left right => .binary .nowhere op left.bare right.bare
  | .chain _ op operands => .chain .nowhere op (bareAll operands)
  | .conditional _ cond yes no => .conditional .nowhere cond.bare yes.bare no.bare

/-- The same for several trees. -/
def bareAll : List Expr → List Expr
  | [] => []
  | e :: es => e.bare :: bareAll es

end

theorem bareAll_eq_map (es : List Expr) : bareAll es = es.map bare := by
  induction es with
  | nil => rfl
  | cons e es ih => rw [bareAll, ih, List.map_cons]

/-- An infix node is bared through its operands. -/
@[simp] theorem bare_join (s : Span) (op : BinaryOp) (es : List Expr) :
    (join s op es).bare = join .nowhere op (es.map bare) := by
  match es with
  | [] => rfl
  | [_] => rfl
  | [_, _] => rfl
  | _ :: _ :: _ :: _ => simp [join, bare, bareAll_eq_map]

@[simp] theorem form_bare (e : Expr) : e.bare.form = e.form := by
  cases e with
  | call s receiver name args =>
    exact congrArg Form.call (by rw [bareAll_eq_map, List.length_map])
  | _ => rfl

/-- Arguments are printed the same without places. -/
theorem argumentFragments_map_bare (es : List Expr) (h : ∀ e ∈ es, e.bare.fragments = e.fragments)
    (first : Bool) : argumentFragments first (es.map bare) = argumentFragments first es := by
  induction es generalizing first with
  | nil => rfl
  | cons e es ih =>
    rw [List.map_cons, argumentFragments, argumentFragments, h e (by simp),
      ih fun x hx => h x (List.mem_cons_of_mem e hx)]

/-- Operands are printed the same without places. -/
theorem operandFragments_map_bare (op : BinaryOp) (es : List Expr)
    (h : ∀ e ∈ es, e.bare.fragments = e.fragments) (leftmost : Bool) :
    operandFragments op leftmost (es.map bare) = operandFragments op leftmost es := by
  induction es generalizing leftmost with
  | nil => rfl
  | cons e es ih =>
    rw [List.map_cons, operandFragments, operandFragments, form_bare, h e (by simp),
      ih fun x hx => h x (List.mem_cons_of_mem e hx)]

/-- **Places do not show.** -/
theorem fragments_bare (e : Expr) : e.bare.fragments = e.fragments := by
  -- the printer looks at the forms of children, and these have no spans
  induction e using induct with
  | absent => rfl
  | error s => rfl
  | literal s kind text => rfl
  | ident s name => rfl
  | call s receiver name args hreceiver hargs =>
    have habsent : receiver.bare = .absent ↔ receiver = .absent := by cases receiver <;> simp [bare]
    rw [bare, bareAll_eq_map, fragments_call, fragments_call, form_bare, hreceiver,
      argumentFragments_map_bare args hargs]
    simp only [habsent]
  | field s receiver name hreceiver => rw [bare, fragments, fragments, form_bare, hreceiver]
  | unary s op operand hoperand => rw [bare, fragments, fragments, form_bare, hoperand]
  | paren s inner hinner => rw [bare, fragments, fragments, hinner]
  | binary s op left right hleft hright =>
    rw [bare, fragments, fragments, form_bare, form_bare, hleft, hright]
  | chain s op operands hoperands =>
    rw [bare, bareAll_eq_map, fragments, fragments, operandFragments_map_bare op operands hoperands]
  | conditional s cond yes no hcond hyes hno =>
    rw [bare, fragments, fragments, form_bare, hcond, hyes, hno]

/-- Trees that differ in the places of their nodes only have the same text. -/
theorem print_congr {e e' : Expr} (h : e.bare = e'.bare) : e.print = e'.print := by
  rw [print, print, ← fragments_bare e, ← fragments_bare e', h]

end Expr

end OperandOrder
