import OperandOrder.Proofs.Explicit

/-!
# The output of a node, child by child

The output of a node is what the node writes of itself, with the outputs of its children in between.
A `Frame` takes the two apart: it has a slot for each child, with what stands in front of the child,
and what stands behind the last one. `Expr.fragments_eq_fill` puts them together again. With it, a
statement about the output of a node needs to look only at what the node writes of itself, and it
holds no matter how the outputs of the children were made.
-/

namespace OperandOrder

/-- The output of a child, in parentheses if it has a position that asks for them. -/
def Fragment.wrapAt (position : Option Position) (form : Form) (inner : List Fragment) :
    List Fragment :=
  match position with
  | some position => wrap position form inner
  | none => inner

/-- **Pieces woven together:** each of `bodies` behind the one of `leads` that belongs to it. -/
def weave {α : Type} (leads bodies : List (List α)) : List α :=
  (List.zipWith (· ++ ·) leads bodies).flatten

section Weave

variable {α : Type}

@[simp] theorem weave_nil (bodies : List (List α)) : weave [] bodies = [] := rfl

@[simp] theorem weave_cons (lead body : List α) (leads bodies : List (List α)) :
    weave (lead :: leads) (body :: bodies) = lead ++ (body ++ weave leads bodies) := by
  rw [weave, List.zipWith_cons_cons, List.flatten_cons, List.append_assoc, weave]

/-- The same lead in front of each body. -/
theorem weave_const {β : Type} (lead : List α) {xs : List β} {bodies : List (List α)}
    (h : bodies.length = xs.length) :
    weave (xs.map fun _ => lead) bodies = bodies.flatMap (lead ++ ·) := by
  induction xs generalizing bodies with
  | nil =>
    obtain rfl := List.length_eq_zero_iff.mp h
    rfl
  | cons x xs ih =>
    obtain ⟨body, bodies, rfl⟩ := List.exists_cons_of_length_eq_add_one h
    rw [List.map_cons, weave_cons, ih (Nat.succ.inj h), List.flatMap_cons, List.append_assoc]

end Weave

namespace Expr

/-! ### Frames -/

/-- **A place for a child:** what is written in front of it, and its position if it may be
wrapped there. -/
structure Slot where
  lead : List Fragment
  position : Option Position
  child : Expr

/-- What is printed of the child. -/
def Slot.body (s : Slot) : List Fragment :=
  Fragment.wrapAt s.position s.child.form s.child.fragments

/-- Slots for children side by side; what is in front of the first one is not in front of
the others. -/
def Slot.row (lead separator : List Fragment) (first others : Option Position) :
    List Expr → List Slot
  | [] => []
  | e :: es => ⟨lead, first, e⟩ :: es.map fun x => ⟨separator, others, x⟩

/-- **What a node writes of itself:** in front of its children, and behind the last one. -/
structure Frame where
  slots : List Slot
  close : List Fragment

/-- What is in front of the children, one by one. -/
def Frame.leads (f : Frame) : List (List Fragment) := f.slots.map Slot.lead

/-- **The output of a node** whose children are printed as given. -/
def Frame.fill (f : Frame) (bodies : List (List Fragment)) : List Fragment :=
  weave f.leads bodies ++ f.close

/-- The point of a call and its name, up to the arguments. -/
def callee (receiver : Expr) (name : String) : List Fragment :=
  (if receiver = .absent then [] else [.text "."]) ++ [.text name, .text "("]

/-- A binary operator with its spaces. -/
def between (op : BinaryOp) : List Fragment := [.space, .text op.symbol, .space]

/-- The slots of operands under one operator. -/
def operandSlots (op : BinaryOp) (es : List Expr) : List Slot :=
  Slot.row [] (between op) (some (.operand op true)) (some (.operand op false)) es

/-- **The frame of a node.** A call has a slot for its receiver, though nothing may be in it. -/
def frame : Expr → Frame
  | .absent => ⟨[], []⟩
  | .error _ => ⟨[], [.text "/* error */"]⟩
  | .literal _ _ text => ⟨[], [.text text]⟩
  | .ident _ name => ⟨[], [.text name]⟩
  | .call _ receiver name args =>
    ⟨⟨[], some .receiver, receiver⟩ ::
      Slot.row (callee receiver name) [.text ",", .space] none none args,
      if args = [] then callee receiver name ++ [.text ")"] else [.text ")"]⟩
  | .field _ receiver name => ⟨[⟨[], some .receiver, receiver⟩], [.text ".", .text name]⟩
  | .unary _ op operand =>
    ⟨[⟨.text op.symbol :: signGap op operand.form, some .unaryOperand, operand⟩], []⟩
  | .paren _ inner => ⟨[⟨[.text "("], none, inner⟩], [.text ")"]⟩
  | .binary _ op left right => ⟨operandSlots op [left, right], []⟩
  | .chain _ op operands => ⟨operandSlots op operands, []⟩
  | .conditional _ cond yes no =>
    ⟨[⟨[], some .condition, cond⟩, ⟨[.space, .text "?", .space], none, yes⟩,
      ⟨[.space, .text ":", .space], none, no⟩], []⟩

/-- What is printed of the children, one by one. -/
def bodies (e : Expr) : List (List Fragment) := e.frame.slots.map Slot.body

/-! ### Filling a frame -/

/-- A row with its bodies in it. -/
theorem weave_row (lead separator : List Fragment) (first others : Option Position) {e : Expr}
    {es : List Expr} {body : List Fragment} {bodies : List (List Fragment)}
    (h : bodies.length = es.length) :
    weave ((Slot.row lead separator first others (e :: es)).map Slot.lead) (body :: bodies) =
      lead ++ (body ++ bodies.flatMap (separator ++ ·)) := by
  rw [Slot.row, List.map_cons, weave_cons, List.map_map]
  exact congrArg (fun rest => lead ++ (body ++ rest)) (weave_const separator h)

/-- Arguments behind the first are each printed behind a comma. -/
theorem argumentFragments_false (es : List Expr) :
    argumentFragments false es = (es.map fragments).flatMap ([.text ",", .space] ++ ·) := by
  induction es with
  | nil => rfl
  | cons e es ih =>
    rw [argumentFragments, ih, List.map_cons, List.flatMap_cons]
    rfl

/-- Operands behind the first are each printed behind the operator. -/
theorem operandFragments_false (op : BinaryOp) (es : List Expr) :
    operandFragments op false es =
      (es.map fun e => Fragment.wrap (.operand op false) e.form e.fragments).flatMap
        (between op ++ ·) := by
  induction es with
  | nil => rfl
  | cons e es ih =>
    rw [operandFragments, ih, List.map_cons, List.flatMap_cons]
    rfl

/-- The operands of a node, filled into their slots. -/
theorem weave_operandSlots (op : BinaryOp) (es : List Expr) :
    weave ((operandSlots op es).map Slot.lead) ((operandSlots op es).map Slot.body) =
      operandFragments op true es := by
  cases es with
  | nil => rfl
  | cons e es =>
    have hbodies : (operandSlots op (e :: es)).map Slot.body =
        Fragment.wrap (.operand op true) e.form e.fragments ::
          es.map fun x => Fragment.wrap (.operand op false) x.form x.fragments := by
      rw [operandSlots, Slot.row, List.map_cons, List.map_map]
      rfl
    rw [hbodies, operandSlots, weave_row _ _ _ _ (List.length_map _), operandFragments, if_pos rfl,
      operandFragments_false]
    rfl

/-- **The output of a tree is its frame,** filled with the outputs of its children. -/
theorem fragments_eq_fill (e : Expr) : e.fragments = e.frame.fill e.bodies := by
  cases e with
  | absent => rfl
  | error s => rfl
  | literal s kind text => rfl
  | ident s name => rfl
  | call s receiver name args =>
    have hreceiver : Fragment.wrap .receiver (Expr.form .absent) (Expr.fragments .absent) = [] :=
      rfl
    -- the list in parentheses begins with its first argument, so it is apart from an empty one
    cases args with
    | nil =>
      rw [fragments_call]
      by_cases hplain : receiver = .absent
      · subst hplain
        rfl
      · simp [frame, bodies, Frame.fill, Frame.leads, Slot.row, callee, Slot.body, Fragment.wrapAt,
          argumentFragments, hplain]
    | cons arg args =>
      have hbodies : (call s receiver name (arg :: args)).bodies =
          Fragment.wrap .receiver receiver.form receiver.fragments :: arg.fragments ::
            args.map fragments := by
        rw [bodies, frame, Slot.row, List.map_cons, List.map_cons, List.map_map]
        rfl
      rw [fragments_call, hbodies, Frame.fill, Frame.leads, frame, List.map_cons, weave_cons,
        weave_row _ _ _ _ (List.length_map _), if_neg (List.cons_ne_nil arg args),
          argumentFragments,
        if_pos rfl, argumentFragments_false]
      by_cases hplain : receiver = .absent
      · subst hplain
        simp [hreceiver, callee]
      · simp [callee, hplain]
  | field s receiver name =>
    simp [fragments, frame, bodies, Frame.fill, Frame.leads, Slot.body, Fragment.wrapAt]
  | unary s op operand =>
    simp [fragments, frame, bodies, Frame.fill, Frame.leads, Slot.body, Fragment.wrapAt]
  | paren s inner =>
    simp [fragments, frame, bodies, Frame.fill, Frame.leads, Slot.body, Fragment.wrapAt]
  -- two operands are printed as a list of two
  | binary s op left right =>
    have hpair : (binary s op left right).fragments = operandFragments op true [left, right] := by
      simp [fragments, operandFragments]
    rw [hpair, ← weave_operandSlots]
    exact (List.append_nil _).symm
  | chain s op operands =>
    rw [fragments, ← weave_operandSlots]
    exact (List.append_nil _).symm
  | conditional s cond yes no =>
    simp [fragments, frame, bodies, Frame.fill, Frame.leads, Slot.body, Fragment.wrapAt]

/-! ### Slots and what is in them -/

/-- The children of slots side by side are those that were given. -/
theorem Slot.mem_row {lead separator : List Fragment} {first others : Option Position}
    {es : List Expr} {s : Slot} (hs : s ∈ Slot.row lead separator first others es) :
    s.child ∈ es := by
  cases es with
  | nil => exact absurd hs List.not_mem_nil
  | cons e es =>
    rcases List.mem_cons.mp hs with rfl | hs
    · exact List.mem_cons_self
    · obtain ⟨x, hx, rfl⟩ := List.mem_map.mp hs
      exact List.mem_cons_of_mem e hx

/-- **Induction on a tree,** with one hypothesis for all slots. -/
theorem induct_slots {motive : Expr → Prop}
    (step : ∀ e : Expr, (∀ s ∈ e.frame.slots, motive s.child) → motive e) (e : Expr) :
    motive e := by
  have hrow : ∀ {lead separator : List Fragment} {first others : Option Position} {es : List Expr},
      (∀ x ∈ es, motive x) → ∀ s ∈ Slot.row lead separator first others es, motive s.child :=
    fun hes s hs => hes _ (Slot.mem_row hs)
  -- the children of a node are those of its slots
  induction e using induct with
  | absent => exact step _ nofun
  | error s => exact step _ nofun
  | literal s kind text => exact step _ nofun
  | ident s name => exact step _ nofun
  | call s receiver name args hreceiver hargs =>
    exact step _ (List.forall_mem_cons.mpr ⟨hreceiver, hrow hargs⟩)
  | field s receiver name hreceiver => exact step _ (List.forall_mem_singleton.mpr hreceiver)
  | unary s op operand hoperand => exact step _ (List.forall_mem_singleton.mpr hoperand)
  | paren s inner hinner => exact step _ (List.forall_mem_singleton.mpr hinner)
  | binary s op left right hleft hright => exact step _ (hrow (forall_mem_pair hleft hright))
  | chain s op operands hoperands => exact step _ (hrow hoperands)
  | conditional s cond yes no hcond hyes hno =>
    exact step _ (List.forall_mem_cons.mpr
      ⟨hcond, List.forall_mem_cons.mpr ⟨hyes, List.forall_mem_singleton.mpr hno⟩⟩)

/-- **An output that fits a slot:** nothing for a child that is not there, and one with a certain
property otherwise. -/
structure Slot.Fits (p : List Fragment → Prop) (s : Slot) (body : List Fragment) : Prop where
  nothing : s.child = .absent → body = []
  output : s.child ≠ .absent → p body

section Fits

variable {p : List Fragment → Prop}

/-- The output of a child fits its slot, if parentheses do no harm. -/
theorem Slot.fits_body (hwrap : ∀ position form fs, p fs → p (Fragment.wrap position form fs))
    {s : Slot} (h : s.child ≠ .absent → p s.child.fragments) : s.Fits p s.body := by
  refine ⟨fun habsent => ?_, fun hne => ?_⟩
  · -- nothing is printed of it, with parentheses or without
    rw [Slot.body, habsent]
    cases s.position with
    | none => rfl
    | some position => cases position <;> rfl
  · rw [Slot.body]
    cases s.position with
    | none => exact h hne
    | some position => exact hwrap position _ _ (h hne)

/-- Children side by side take up as many outputs. -/
theorem exists_of_fits_row {lead separator : List Fragment} {first others : Option Position}
    {e : Expr} {es : List Expr} (hes : ∀ x ∈ e :: es, x ≠ .absent) {bodies : List (List Fragment)}
    (h : List.Forall₂ (Slot.Fits p) (Slot.row lead separator first others (e :: es)) bodies) :
    ∃ b bs, bodies = b :: bs ∧ bs.length = es.length ∧ p b ∧ ∀ x ∈ bs, p x := by
  obtain ⟨b, bs, hb, hbs, rfl⟩ := List.forall₂_cons_left_iff.mp h
  refine ⟨b, bs, rfl, ?_, hb.output (hes e (by simp)), fun x hx => ?_⟩
  · rw [← hbs.length_eq, List.length_map]
  · obtain ⟨i, hi, rfl⟩ := List.getElem_of_mem hx
    have hi' : i < (es.map fun x => Slot.mk separator others x).length := by rwa [hbs.length_eq]
    have hfits := hbs.get hi' hi
    rw [List.get_eq_getElem, List.getElem_map] at hfits
    exact hfits.output (hes _ (List.mem_cons_of_mem e (List.getElem_mem _)))

end Fits

end Expr

end OperandOrder
