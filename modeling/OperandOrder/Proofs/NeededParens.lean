import OperandOrder.Proofs.Cores
import OperandOrder.Proofs.Locality

/-!
# No parenthesis is printed in vain

The printer puts a child in parentheses where its position asks for them. `Expr.sparing?` is the
output of a tree with one such pair left out. `Expr.parse_sparing` says that the tree is then lost:
the text has errors, or what is read from it is another tree, even if parentheses and places are
disregarded.

Suppose the text was read as a tree with the same core. Its output has the words that are left, and
it needs no parenthesis that is not there. Follow the path in both trees, past the parentheses that
only one of them has: each output stays a shift of the other (`shifted_weave`). At the end stands a
child without its parentheses, and the child at the same position of the other tree. A parenthesis
around that one would be a shift, and there is none, since both parents have a word of their own. So
the other child is no parenthesis either. It has the same form, and its position asks for a
parenthesis that is not there.
-/

namespace OperandOrder

open Fragment Lexeme

namespace Expr

/-! ### Printing without one pair of parentheses -/

/-- **The output of a tree without the parentheses around one child,** the one in slot `i` of the
node at the end of the path. -/
def sparing? (i : Nat) : Expr → List Nat → Option (List Fragment)
  | e, [] => e.frame.slots[i]?.map fun s => e.frame.fill (e.bodies.set i s.child.fragments)
  | e, j :: path => e.frame.slots[j]?.bind fun s => (s.child.sparing? i path).map fun fs =>
    e.frame.fill (e.bodies.set j (wrapAt s.position s.child.form fs))

/-- One output of a node exchanged. -/
theorem exists_fill_set {f : Frame} {bodies : List (List Fragment)}
    (hlength : bodies.length = f.slots.length) {j : Nat} (hj : j < f.slots.length) :
    ∃ before behind, ∀ body, f.fill (bodies.set j body) = before ++ (body ++ behind) := by
  obtain ⟨slots, close⟩ := f
  -- the text in front is that of the slots before, and what is behind does not depend on the body
  induction slots generalizing bodies j with
  | nil => exact absurd hj (Nat.not_lt_zero j)
  | cons s slots ih =>
    obtain ⟨b, bodies, rfl⟩ := List.exists_cons_of_length_eq_add_one hlength
    have hfill : ∀ (b : List Fragment) (bs : List (List Fragment)),
        Frame.fill ⟨s :: slots, close⟩ (b :: bs) =
          s.lead ++ (b ++ Frame.fill ⟨slots, close⟩ bs) := by
      intro b bs
      simp [Frame.fill, Frame.leads]
    cases j with
    | zero => exact ⟨s.lead, Frame.fill ⟨slots, close⟩ bodies, fun body => hfill body bodies⟩
    | succ j =>
      obtain ⟨before, behind, hset⟩ := ih (Nat.succ.inj hlength) (Nat.lt_of_succ_lt_succ hj)
      refine ⟨s.lead ++ (b ++ before), behind, fun body => ?_⟩
      rw [List.set_cons_succ, hfill, hset, List.append_assoc, List.append_assoc]

/-- Parentheses stand in front and behind, or there are none. -/
theorem exists_wrapAt (position : Option Position) (form : Form) :
    ∃ opening closing, ∀ fs, wrapAt position form fs = opening ++ (fs ++ closing) := by
  have hnone : ∃ opening closing, ∀ fs : List Fragment, fs = opening ++ (fs ++ closing) :=
    ⟨[], [], fun fs => by rw [List.nil_append, List.append_nil]⟩
  cases position with
  | none => exact hnone
  | some position =>
    by_cases hwraps : position.wraps form = true
    · refine ⟨[.text "("], [.text ")"], fun fs => ?_⟩
      change wrap position form fs = _
      rw [wrap, if_pos hwraps]
      rfl
    · obtain ⟨opening, closing, hsame⟩ := hnone
      refine ⟨opening, closing, fun fs => ?_⟩
      change wrap position form fs = _
      rw [wrap, if_neg hwraps, ← hsame]

theorem length_bodies (e : Expr) : e.bodies.length = e.frame.slots.length := List.length_map _

/-- The output of a node, and of the same node with the output of one child exchanged. -/
theorem exists_fragments_set {e : Expr} {j : Nat} {s : Slot} (hs : e.frame.slots[j]? = some s) :
    ∃ before behind, e.fragments = before ++ (s.body ++ behind) ∧
      ∀ body, e.frame.fill (e.bodies.set j body) = before ++ (body ++ behind) := by
  obtain ⟨hj, rfl⟩ := List.getElem?_eq_some_iff.mp hs
  obtain ⟨before, behind, hset⟩ := exists_fill_set e.length_bodies hj
  refine ⟨before, behind, ?_, hset⟩
  have hsame : e.bodies.set j e.frame.slots[j].body = e.bodies := by
    rw [bodies, ← List.map_set, List.set_getElem_self]
  rw [← hset, hsame, fragments_eq_fill]

/-! ### Slots and positions -/

/-- The children of slots side by side, in their order. -/
theorem child_row (lead separator : List Fragment) (first others : Option Position)
    (es : List Expr) : (Slot.row lead separator first others es).map Slot.child = es := by
  cases es with
  | nil => rfl
  | cons e es =>
    rw [Slot.row, List.map_cons, List.map_map]
    exact congrArg (e :: ·) (List.map_id es)

/-- There is a slot for each place of a child. -/
theorem slots_eq (e : Expr) : e.slots = e.frame.slots.map Slot.child := by
  cases e with
  | call s receiver name args => exact congrArg (receiver :: ·) (child_row _ _ _ _ args).symm
  | binary s op left right => rfl
  | chain s op operands => exact (child_row _ _ _ _ operands).symm
  | _ => rfl

theorem positionedOperands_false (op : BinaryOp) (es : List Expr) :
    positionedOperands op false es = es.map fun x => (.operand op false, x) := by
  induction es with
  | nil => rfl
  | cons e es ih => rw [positionedOperands, ih, List.map_cons]

/-- **Children that may be wrapped** are in the first slots, and the others have no position. -/
theorem exists_positioned (e : Expr) :
    ∃ others : List Expr, (e.frame.slots.map fun s => (s.position, s.child)) =
      (e.positioned.map fun p => (some p.1, p.2)) ++ others.map fun x => (none, x) := by
  -- slots without a position are those whose children never need parentheses
  have hoperands : ∀ (op : BinaryOp) (es : List Expr),
      ((operandSlots op es).map fun s => (s.position, s.child)) =
        ((positionedOperands op true es).map fun p => (some p.1, p.2)) ++ [] := by
    intro op es
    cases es with
    | nil => rfl
    | cons e es =>
      rw [positionedOperands, positionedOperands_false, operandSlots, Slot.row, List.map_cons,
        List.map_map, List.map_cons, List.map_map, List.append_nil]
      rfl
  cases e with
  | call s receiver name args =>
    refine ⟨args, congrArg (_ :: ·) ?_⟩
    cases args with
    | nil => rfl
    | cons arg args =>
      rw [Slot.row, List.map_cons, List.map_map]
      rfl
  | paren s inner => exact ⟨[inner], rfl⟩
  | binary s op left right => exact ⟨[], hoperands op [left, right]⟩
  | chain s op operands => exact ⟨[], hoperands op operands⟩
  | conditional s cond yes no => exact ⟨[yes, no], rfl⟩
  | _ => exact ⟨[], rfl⟩

/-- A child that may need a parenthesis has a slot that says so. -/
theorem exists_slot_of_positioned {e : Expr} {i : Nat} {position : Position} {child : Expr}
    (h : e.positioned[i]? = some (position, child)) :
    ∃ s, e.frame.slots[i]? = some s ∧ s.position = some position ∧ s.child = child := by
  obtain ⟨others, hslots⟩ := e.exists_positioned
  obtain ⟨hi, -⟩ := List.getElem?_eq_some_iff.mp h
  have hat : (e.frame.slots.map fun s => (s.position, s.child))[i]? =
      some (some position, child) := by
    rw [hslots, List.getElem?_append_left (by rwa [List.length_map]), List.getElem?_map, h]
    rfl
  rw [List.getElem?_map, Option.map_eq_some_iff] at hat
  obtain ⟨s, hs, hsame⟩ := hat
  exact ⟨s, hs, (Prod.mk.inj hsame).1, (Prod.mk.inj hsame).2⟩

/-- A child with a position is one of those that may be wrapped. -/
theorem mem_positioned_of_slot {e : Expr} {s : Slot} (hs : s ∈ e.frame.slots) {position : Position}
    (hposition : s.position = some position) : (position, s.child) ∈ e.positioned := by
  obtain ⟨others, hslots⟩ := e.exists_positioned
  have hmem : (s.position, s.child) ∈ e.frame.slots.map fun s => (s.position, s.child) :=
    List.mem_map_of_mem hs
  rw [hslots, hposition, List.mem_append] at hmem
  rcases hmem with hmem | hmem
  · obtain ⟨p, hp, hsame⟩ := List.mem_map.mp hmem
    obtain ⟨hfirst, hsecond⟩ := Prod.mk.inj hsame
    rwa [← Option.some.inj hfirst, ← hsecond]
  · obtain ⟨x, -, hsame⟩ := List.mem_map.mp hmem
    exact nomatch (Prod.mk.inj hsame).1

/-- Where no parenthesis is needed, a child is printed as it is. -/
theorem body_of_noParens {e : Expr} (h : e.NoParens) {s : Slot} (hs : s ∈ e.frame.slots) :
    s.body = s.child.fragments := by
  unfold Slot.body wrapAt
  split
  next position hposition =>
    have hwraps := h _ (mem_positioned_of_slot hs hposition)
    exact wrap_of_not_wraps hwraps _
  next => rfl

/-- What holds of every node of a tree holds of every node in a slot. -/
theorem Every.slots {p : Expr → Prop} {e : Expr} (h : e.Every p) :
    ∀ s ∈ e.frame.slots, s.child.Every p := by
  intro s hs
  have hchild : s.child ∈ e.slots := by
    rw [slots_eq]
    exact List.mem_map_of_mem hs
  -- a receiver that is not there has a slot too, so these are more than the children
  cases e with
  | call _ receiver name args =>
    obtain ⟨-, hreceiver, hargs⟩ := h
    rcases List.mem_cons.mp hchild with hsame | hmem
    · rwa [hsame]
    · exact (everyOf_iff p args).mp hargs _ hmem
  | field _ receiver name => exact List.mem_singleton.mp hchild ▸ h.2
  | unary _ op operand => exact List.mem_singleton.mp hchild ▸ h.2
  | paren _ inner => exact List.mem_singleton.mp hchild ▸ h.2
  | binary _ op left right => exact forall_mem_pair h.2.1 h.2.2 _ hchild
  | chain _ op operands => exact (everyOf_iff p operands).mp h.2 _ hchild
  | conditional _ cond yes no =>
    exact List.forall_mem_cons.mpr ⟨h.2.1, forall_mem_pair h.2.2.1 h.2.2.2⟩ _ hchild
  | _ => exact absurd hs List.not_mem_nil

/-! ### What is printed without the pair -/

/-- **The output without the pair** is the output of the tree, but for the two parentheses. -/
theorem exists_sparing {i : Nat} {e x : Expr} {path : List Nat} {s : Slot}
    (hx : e.at? path = some x) (hs : x.frame.slots[i]? = some s) :
    ∃ before behind, e.fragments = before ++ (s.body ++ behind) ∧
      e.sparing? i path = some (before ++ (s.child.fragments ++ behind)) := by
  induction path generalizing e with
  | nil =>
    obtain rfl : e = x := Option.some.inj hx
    obtain ⟨before, behind, hfragments, hset⟩ := exists_fragments_set hs
    exact ⟨before, behind, hfragments, by rw [sparing?, hs, Option.map_some, hset]⟩
  | cons j path ih =>
    rw [at?, slots_eq, List.getElem?_map, Option.bind_eq_some_iff] at hx
    obtain ⟨child, hchild, hx⟩ := hx
    obtain ⟨sj, hsj, rfl⟩ := Option.map_eq_some_iff.mp hchild
    obtain ⟨inside, outside, hinner, hspared⟩ := ih hx
    obtain ⟨before, behind, hfragments, hset⟩ := exists_fragments_set hsj
    -- the parentheses of the child itself stay where they are
    obtain ⟨opening, closing, hwrap⟩ := exists_wrapAt sj.position sj.child.form
    refine ⟨before ++ (opening ++ inside), outside ++ (closing ++ behind), ?_, ?_⟩
    · rw [hfragments, Slot.body, hwrap, hinner]
      simp only [List.append_assoc]
    · rw [sparing?, hsj, Option.bind_some, hspared, Option.map_some, hset, hwrap]
      simp only [List.append_assoc]

/-- One of the outputs of the children exchanged. -/
theorem forall₂_set {R : Slot → List Fragment → Prop} {e : Expr} {j : Nat} {s : Slot}
    (hs : e.frame.slots[j]? = some s) {body : List Fragment} (hbody : R s body)
    (hothers : ∀ s ∈ e.frame.slots, R s s.body) :
    List.Forall₂ R e.frame.slots (e.bodies.set j body) := by
  rw [List.forall₂_iff_get]
  refine ⟨by rw [List.length_set, length_bodies], fun i hi hi' => ?_⟩
  simp only [List.get_eq_getElem, List.getElem_set]
  split
  next heq =>
    subst heq
    obtain rfl : e.frame.slots[j] = s :=
      Option.some.inj ((List.getElem?_eq_getElem hi).symm.trans hs)
    exact hbody
  next =>
    simp only [bodies, List.getElem_map]
    exact hothers _ (List.getElem_mem hi)

section Property

variable {p : List Fragment → Prop} (hwrap : ∀ position form fs, p fs → p (wrap position form fs))
  (hfill : ∀ e : Expr, e.Printable → ∀ bodies, List.Forall₂ (Slot.Fits p) e.frame.slots bodies →
    p (e.frame.fill bodies))

include hwrap hfill

theorem fits_set {e : Expr} (he : e.Printable) {j : Nat} {s : Slot}
    (hs : e.frame.slots[j]? = some s) {body : List Fragment} (hbody : s.Fits p body) :
    List.Forall₂ (Slot.Fits p) e.frame.slots (e.bodies.set j body) := by
  refine forall₂_set hs hbody fun s hs => Slot.fits_body hwrap fun hne => ?_
  exact Printable.fragments hwrap hfill ((printable_slots he s hs).resolve_left hne)

/-- **What holds of printed trees** holds of those that are printed without a pair of
parentheses. -/
theorem Printable.sparing {i : Nat} {e : Expr} {path : List Nat} {fs : List Fragment}
    (he : e.Printable) (hfs : e.sparing? i path = some fs) : p fs := by
  -- the induction is on the way down to the slot whose parentheses are left out
  induction path generalizing e fs with
  | nil =>
    obtain ⟨s, hs, rfl⟩ := Option.map_eq_some_iff.mp hfs
    refine hfill e he _
      (fits_set hwrap hfill he hs ⟨fun habsent => by rw [habsent]; rfl, fun hne => ?_⟩)
    have hchild := (printable_slots he s (List.mem_of_getElem? hs)).resolve_left hne
    exact Printable.fragments hwrap hfill hchild
  | cons j path ih =>
    obtain ⟨s, hs, hspared⟩ := Option.bind_eq_some_iff.mp hfs
    obtain ⟨inner, hinner, rfl⟩ := Option.map_eq_some_iff.mp hspared
    -- there is something below this slot, so it is not empty
    have hne : s.child ≠ .absent := by
      intro habsent
      rw [habsent] at hinner
      cases path <;> cases hinner
    have hchild := (printable_slots he s (List.mem_of_getElem? hs)).resolve_left hne
    refine hfill e he _
      (fits_set hwrap hfill he hs ⟨fun habsent => absurd habsent hne, fun _ => ?_⟩)
    cases s.position with
    | none => exact ih hchild hinner
    | some position => exact hwrap position _ _ (ih hchild hinner)

end Property

/-! ### Two trees with the same core -/

/-- **The first node below the parentheses** of a tree, and how many there are. -/
theorem exists_unparen (t : Expr) (ht : t.Printable) (hnone : t.Every NoParens) :
    ∃ (u : Expr) (n : Nat), u.Printable ∧ u.Every NoParens ∧ ¬u.IsParen ∧ u.core = t.core ∧
      (n = 0 → u = t) ∧
      ∀ k ws, Shifted k ws (words t.fragments) → Shifted (k + n) ws (words u.fragments) := by
  induction t using induct with
  | paren s inner ih =>
    obtain ⟨u, n, hu, hnone', hnode, hcore, -, hshift⟩ := ih ht hnone.2
    refine ⟨u, n + 1, hu, hnone', hnode, hcore, fun hzero => absurd hzero n.succ_ne_zero,
      fun k ws h => ?_⟩
    rw [fragments, words_append] at h
    have hinner := hshift (k + 1) ws (shifted_parens_right h)
    have hlevels : k + ((n + 1 : Nat) : Int) = k + 1 + n := by omega
    rwa [hlevels]
  | _ =>
    refine ⟨_, 0, ht, hnone, ?_, rfl, fun _ => rfl, fun k ws h => ?_⟩
    · rintro ⟨s, inner, heq⟩
      cases heq
    · exact (Int.add_zero k).symm ▸ h

/-- What is printed without the pair has the same words otherwise. -/
theorem alike_sparing {i : Nat} {e x : Expr} {path : List Nat} {s : Slot} (hx : e.at? path = some x)
    (hs : x.frame.slots[i]? = some s) {fs : List Fragment} (hfs : e.sparing? i path = some fs) :
    Alike (words fs) (words e.fragments) := by
  obtain ⟨before, behind, hfragments, hspared⟩ := exists_sparing hx hs
  obtain rfl := Option.some.inj (hfs.symm.trans hspared)
  rw [hfragments, words_append, words_append, words_append, words_append]
  exact (Alike.refl _).append ((alike_body s).symm.append (.refl _))

/-- Parentheses around an output shift it. -/
theorem exists_shifted_wrapAt {position : Option Position} {form : Form} {fs : List Fragment}
    {k : Int} {vs : List Word} (h : Shifted k (words (wrapAt position form fs)) vs) :
    ∃ k', Shifted k' (words fs) vs := by
  cases position with
  | none => exact ⟨k, h⟩
  | some position =>
    change Shifted k (words (wrap position form fs)) vs at h
    unfold wrap at h
    split at h
    · rw [words_append] at h
      exact ⟨k - 1, shifted_parens_left h⟩
    · exact ⟨k, h⟩

theorem rel_of_getElem? {α β : Type} {R : α → β → Prop} {as : List α} {bs : List β}
    (h : List.Forall₂ R as bs) {i : Nat} {a : α} {b : β} (ha : as[i]? = some a)
    (hb : bs[i]? = some b) : R a b := by
  obtain ⟨hi, rfl⟩ := List.getElem?_eq_some_iff.mp ha
  obtain ⟨hi', rfl⟩ := List.getElem?_eq_some_iff.mp hb
  exact h.get hi hi'

/-- Where one of two slots with the same core holds a printable tree, so does the other. -/
theorem printable_of_core {t : Expr} (ht : t.Printable) {s' : Slot} (hs' : s' ∈ t.frame.slots)
    {c : Expr} (hc : c.Printable) (hcore : c.core = s'.child.core) : s'.child.Printable := by
  refine (printable_slots ht s' hs').resolve_left fun habsent => ?_
  rw [habsent] at hcore
  exact core_ne_absent c hc hcore

section Descent

variable {e t : Expr} {j : Nat} {s : Slot} {body : List Fragment} {k : Int}

/-- **One step down.** If the output of a node with one child printed otherwise is a shift of the
output of a tree with the same core that needs no parenthesis, so is the output of the child of that
of the child in the same place. -/
theorem exists_shifted_child (he : e.Printable) (hnode : ¬e.IsParen) (ht : t.Printable)
    (hnone : t.Every NoParens) (hcore : e.core = t.core) (hs : e.frame.slots[j]? = some s)
    (hchild : s.child.Printable) (hbody : Alike (words body) (words s.body))
    (h : Shifted k (words (e.frame.fill (e.bodies.set j body))) (words t.fragments)) :
    ∃ c : Expr, c.Printable ∧ c.Every NoParens ∧ s.child.core = c.core ∧
      (∀ position, s.position = some position → position.wraps c.form = false) ∧
      Shifted 0 (words body) (words c.fragments) := by
  -- the other tree may have parentheses on top, below which it is of the same kind
  obtain ⟨u, n, hu, hnone', hnode', hcore', -, hshift⟩ := exists_unparen t ht hnone
  have hsame : e.core = u.core := hcore.trans hcore'.symm
  have halike : List.Forall₂ (fun s fs => Alike (words fs) (words s.body)) e.frame.slots
      (e.bodies.set j body) :=
    forall₂_set hs hbody fun s _ => .refl _
  obtain ⟨-, hchildren⟩ := shifted_slots he hu hnode hnode' hsame halike (hshift k _ h)
  obtain ⟨s', hs', hposition, hcorec, -⟩ := slots_of_core he hu hnode hnode' hsame hs
  have hmem := List.mem_of_getElem? hs'
  have hset : (e.bodies.set j body)[j]? = some body := by
    obtain ⟨hj, -⟩ := List.getElem?_eq_some_iff.mp hs
    exact List.getElem?_set_self (by rwa [length_bodies])
  refine ⟨s'.child, printable_of_core hu hmem hchild hcorec, hnone'.slots s' hmem, hcorec, ?_, ?_⟩
  · intro position hp
    exact hnone'.self _ (mem_positioned_of_slot hmem (hposition.trans hp))
  · have hshifted := rel_of_getElem? hchildren hset hs'
    rwa [body_of_noParens hnone'.self hmem] at hshifted

end Descent

/-- **A shift by nothing finds no parenthesis** that only one of two trees has. -/
theorem not_isParen_of_shifted {c t : Expr} (hc : c.Printable) (hnode : ¬c.IsParen)
    (ht : t.Printable) (hnone : t.Every NoParens) (hcore : c.core = t.core)
    (h : Shifted 0 (words c.fragments) (words t.fragments)) : ¬t.IsParen := by
  obtain ⟨u, n, hu, -, hnode', hcore', hself, hshift⟩ := exists_unparen t ht hnone
  have hsame : c.core = u.core := hcore.trans hcore'.symm
  have halike : List.Forall₂ (fun s fs => Alike (words fs) (words s.body)) c.frame.slots
      c.bodies := by
    rw [bodies, List.forall₂_map_right_iff, List.forall₂_same]
    exact fun s _ => .refl _
  have hwhole := hshift 0 _ h
  rw [fragments_eq_fill c] at hwhole
  obtain ⟨hlevels, -⟩ := shifted_slots hc hu hnode hnode' hsame halike hwhole
  rwa [← hself (by omega)]

/-- **The pair makes a difference.** What is printed without it is no shift of the output of a tree
with the same core that needs no parenthesis. -/
theorem not_shifted_sparing {i : Nat} {x : Expr} {s : Slot} {position : Position}
    (hs : x.frame.slots[i]? = some s) (hposition : s.position = some position)
    (hwraps : position.wraps s.child.form = true) {e t : Expr} {path : List Nat}
    {fs : List Fragment} {k : Int} (he : e.Printable) (ht : t.Printable) (hnone : t.Every NoParens)
    (hcore : e.core = t.core) (hx : e.at? path = some x) (hfs : e.sparing? i path = some fs) :
    ¬Shifted k (words fs) (words t.fragments) := by
  intro h
  induction path generalizing e t fs k with
  | nil =>
    obtain rfl : e = x := Option.some.inj hx
    rw [sparing?, hs] at hfs
    obtain rfl := Option.some.inj hfs
    have hmem := List.mem_of_getElem? hs
    have hnode : ¬e.IsParen := by
      rintro ⟨sp, inner, rfl⟩
      -- what is inside a parenthesis has no position
      rw [List.mem_singleton.mp hmem] at hposition
      cases hposition
    have hchildnode := not_isParen_of_wraps hwraps
    have hchild : s.child.Printable := by
      refine (printable_slots he s hmem).resolve_left fun habsent => ?_
      rw [habsent] at hwraps
      cases position <;> cases hwraps
    obtain ⟨c, hc, hnonec, hcorec, hnotwraps, hshifted⟩ :=
      exists_shifted_child he hnode ht hnone hcore hs hchild (alike_body s).symm h
    have hcnode := not_isParen_of_shifted hchild hchildnode hc hnonec hcorec hshifted
    have hform : c.form = s.child.form := by rw [← form_core hcnode, ← hcorec, form_core hchildnode]
    rw [← hform, hnotwraps position hposition] at hwraps
    exact Bool.false_ne_true hwraps
  | cons j path ih =>
    rw [at?, slots_eq, List.getElem?_map, Option.bind_eq_some_iff] at hx
    obtain ⟨child, hchild, hx⟩ := hx
    obtain ⟨sj, hsj, rfl⟩ := Option.map_eq_some_iff.mp hchild
    rw [sparing?, hsj, Option.bind_some] at hfs
    obtain ⟨inner, hinner, rfl⟩ := Option.map_eq_some_iff.mp hfs
    have hmem := List.mem_of_getElem? hsj
    have hprintable : sj.child.Printable := by
      refine (printable_slots he sj hmem).resolve_left fun habsent => ?_
      rw [habsent] at hinner
      cases path <;> cases hinner
    by_cases hnode : e.IsParen
    · -- the path goes through a parenthesis, which the other tree need not have
      obtain ⟨sp, inside, rfl⟩ := hnode
      obtain rfl := List.mem_singleton.mp hmem
      obtain rfl : j = 0 := by
        obtain ⟨hj, -⟩ := List.getElem?_eq_some_iff.mp hsj
        exact Nat.lt_one_iff.mp hj
      have hparens : words ((paren sp inside).frame.fill
          ((paren sp inside).bodies.set 0 (wrapAt none inside.form inner))) =
            .of "(" :: words inner ++ [.of ")"] := by
        simp [frame, bodies, Frame.fill, Frame.leads, wrapAt]
      have hinside : inside.Printable := he
      rw [hparens] at h
      exact ih hinside ht hnone hcore hx hinner (shifted_parens_left h)
    · have halike : Alike (words (wrapAt sj.position sj.child.form inner)) (words sj.body) :=
        (alike_wrapAt _ _ _).trans ((alike_sparing hx hs hinner).trans (alike_body sj).symm)
      obtain ⟨c, hc, hnonec, hcorec, -, hshifted⟩ :=
        exists_shifted_child he hnode ht hnone hcore hsj hprintable halike h
      obtain ⟨k', hk'⟩ := exists_shifted_wrapAt hshifted
      exact ih hprintable hc hnonec hcorec hx hinner hk'

/-! ### Texts -/

/-- **An output that is read without errors** has the words of what is read from it. -/
theorem words_parse_layout {fs : List Fragment} (hsound : Sound fs) (hneat : Neat fs)
    (herrors : (parse (layout fs)).errors = []) :
    words (parse (layout fs)).expr.fragments = words fs := by
  have hchars : (layout fs).toList = allChars fs := String.toList_ofList
  have hspells : Spells (allChars fs) (words fs) := by
    have hspelled := hsound.spelled [] [] ends_nil .nil
    rwa [List.append_nil, List.append_nil] at hspelled
  obtain ⟨hlex, hderives⟩ := derives_of_parse herrors
  have hwidth : Text.width (layout fs).toList ≤ Span.limit := by
    by_contra hwide
    -- it would be too long to be read
    obtain ⟨gs, s, hlast, -⟩ := hneat.closes
    have hbeyond : Span.limit < 0 + width fs := by
      rw [hchars] at hwide
      rw [Nat.zero_add]
      exact Nat.lt_of_not_le hwide
    have hlong := lexFrom_errors_of_width (Text.width (layout fs).toList) hneat.proper hspells
      ⟨gs, s, hlast⟩ hbeyond
    rw [← hchars] at hlong
    exact hlong hlex
  obtain ⟨-, hwords⟩ := lex_of_spells (hchars ▸ hspells) hwidth
  exact (hderives.map_word (asWritten_lex _)).symm.trans hwords

/-- **Every parenthesis that is printed around a child is needed.** Where a child of a printable
tree is wrapped, the output without this pair of parentheses is read with errors, or as a tree that
is another one even when parentheses and places are disregarded. -/
theorem parse_sparing (e : Expr) (he : e.Printable) (path : List Nat) (x : Expr)
    (hx : e.at? path = some x) (i : Nat) (position : Position) (child : Expr)
    (hchild : x.positioned[i]? = some (position, child))
    (hneeds : child.needsParens position = true) :
    ∃ before behind,
      e.fragments = before ++ (.text "(" :: child.fragments ++ [.text ")"]) ++ behind ∧
      e.sparing? i path = some (before ++ child.fragments ++ behind) ∧
      ((parse (layout (before ++ child.fragments ++ behind))).errors ≠ [] ∨
        (parse (layout (before ++ child.fragments ++ behind))).expr.core ≠ e.core) := by
  obtain ⟨s, hs, hposition, rfl⟩ := exists_slot_of_positioned hchild
  obtain ⟨before, behind, hfragments, hspared⟩ := exists_sparing hx hs
  rw [← List.append_assoc] at hspared
  have hbody : s.body = .text "(" :: s.child.fragments ++ [.text ")"] := by
    rw [Slot.body, hposition]
    exact if_pos hneeds
  refine ⟨before, behind, by rw [hfragments, hbody, ← List.append_assoc], hspared, ?_⟩
  -- Were it read as the same tree, the words would stand at the depths they had with the
  -- parentheses.
  by_cases herrors : (parse (layout (before ++ s.child.fragments ++ behind))).errors = []
  · refine .inr fun hcore => ?_
    have hsound : Sound (before ++ s.child.fragments ++ behind) :=
      Printable.sparing (fun position form _ h => sound_wrap h position form)
        (fun _ he _ h => sound_fill he h) he hspared
    have hneat : Neat (before ++ s.child.fragments ++ behind) :=
      Printable.sparing (fun position form _ h => neat_wrap h position form)
        (fun _ he _ h => neat_fill he h) he hspared
    obtain ⟨-, hderives⟩ := derives_of_parse herrors
    have hnone := noParens_of_explicit _ hderives.explicit
    refine not_shifted_sparing hs hposition hneeds he (printable_parse herrors) hnone hcore.symm
      hx hspared (k := 0) ?_
    rw [words_parse_layout hsound hneat herrors]
    rfl
  · exact .inl herrors

/-- `(a + b) + c * d`, with no parenthesis in the tree: the operands on the left are not to become
a chain. -/
def nestedSum : Expr :=
  .binary .nowhere .add (.binary .nowhere .add (.ident .nowhere "a") (.ident .nowhere "b"))
    (.binary .nowhere .mul (.ident .nowhere "c") (.ident .nowhere "d"))

/-- Without its parentheses, the sum in front becomes part of the chain. -/
theorem parse_sparing_nestedSum : nestedSum.Printable ∧ nestedSum.print = "(a + b) + c * d" ∧
    ∃ fs, nestedSum.sparing? 0 [] = some fs ∧ layout fs = "a + b + c * d" ∧
      ((parse (layout fs)).errors ≠ [] ∨ (parse (layout fs)).expr.core ≠ nestedSum.core) := by
  have hprintable : nestedSum.Printable := ⟨⟨rfl, rfl⟩, rfl, rfl⟩
  obtain ⟨before, behind, -, hspared, hlost⟩ :=
    parse_sparing nestedSum hprintable [] nestedSum rfl 0 (.operand .add true) _ rfl rfl
  refine ⟨hprintable, by decide, _, hspared, ?_, hlost⟩
  have hfs : nestedSum.sparing? 0 [] =
      some [.text "a", .space, .text "+", .space, .text "b", .space, .text "+",
      .space, .text "c", .space, .text "*", .space, .text "d"] := by decide
  rw [← Option.some.inj (hfs.symm.trans hspared)]
  decide

end Expr

end OperandOrder
