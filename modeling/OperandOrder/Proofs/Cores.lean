import OperandOrder.Proofs.Depths
import OperandOrder.Proofs.Reprinting

/-!
# Trees without their parentheses

`Expr.core` takes the parentheses and the places out of a tree. Two nodes that are no parentheses
and have the same core write the same words of themselves and give their children the same positions
(`Expr.outline_core`); so the outputs of trees with the same core differ in parentheses only
(`Expr.alike_of_core`).

A node that is no parenthesis has a word of its own (`Expr.marks_own`). Where the outputs of two
such nodes are shifted against each other, there is no shift, and the outputs of the children are
shifted as well (`Expr.shifted_slots`).
-/

namespace OperandOrder

namespace Expr

/-! ### Cores -/

mutual

/-- **A tree without its parentheses,** and without the places of its nodes. -/
def core : Expr → Expr
  | .absent => .absent
  | .error _ => .error .nowhere
  | .literal _ kind text => .literal .nowhere kind text
  | .ident _ name => .ident .nowhere name
  | .call _ receiver name args => .call .nowhere receiver.core name (coreAll args)
  | .field _ receiver name => .field .nowhere receiver.core name
  | .unary _ op operand => .unary .nowhere op operand.core
  | .paren _ inner => inner.core
  | .binary _ op left right => .binary .nowhere op left.core right.core
  | .chain _ op operands => .chain .nowhere op (coreAll operands)
  | .conditional _ cond yes no => .conditional .nowhere cond.core yes.core no.core

/-- The same for several trees. -/
def coreAll : List Expr → List Expr
  | [] => []
  | e :: es => e.core :: coreAll es

end

open Fragment

theorem coreAll_eq_map (es : List Expr) : coreAll es = es.map core := by
  induction es with
  | nil => rfl
  | cons e es ih => rw [coreAll, ih, List.map_cons]

/-- **A parenthesis** as a node of the tree. -/
def IsParen (e : Expr) : Prop := ∃ s inner, e = .paren s inner

theorem not_isParen_of_wraps {position : Position} {e : Expr} (h : position.wraps e.form = true) :
    ¬e.IsParen := by
  rintro ⟨s, inner, rfl⟩
  exact Bool.false_ne_true (position.wraps_plain.symm.trans h)

/-- Without parentheses around it, a node keeps its form. -/
theorem form_core {e : Expr} (h : ¬e.IsParen) : e.core.form = e.form := by
  cases e with
  | call s receiver name args => exact congrArg Form.call (by rw [coreAll_eq_map, List.length_map])
  | paren s inner => exact absurd ⟨s, inner, rfl⟩ h
  | _ => rfl

/-- There is something left of a printable tree. -/
theorem core_ne_absent (e : Expr) (he : e.Printable) : e.core ≠ .absent := by
  induction e using induct with
  | absent => exact he.elim
  | paren s inner hinner => exact hinner he
  | _ => exact nofun

/-! ### What a node writes of itself -/

/-- **The outline of a node:** the words in front of each child, its position, and the child as `g`
takes it. -/
def outline (g : Expr → Expr) (e : Expr) : List (List Word × Option Position × Expr) :=
  e.frame.slots.map fun s => (words s.lead, s.position, g s.child)

/-- The outline of children side by side does not depend on their parentheses. -/
theorem outline_row (lead separator : List Fragment) (first others : Option Position)
    (es : List Expr) :
    (Slot.row lead separator first others (es.map core)).map
      (fun s => (words s.lead, s.position, s.child)) =
      (Slot.row lead separator first others es).map fun s =>
        (words s.lead, s.position, s.child.core) := by
  cases es with
  | nil => rfl
  | cons e es => simp [Slot.row]

/-- **A node without its parentheses** writes the same words of itself. -/
theorem outline_core {e : Expr} (he : e.Printable) (hnode : ¬e.IsParen) :
    e.core.outline id = e.outline core ∧ words e.core.frame.close = words e.frame.close := by
  cases e with
  | call s receiver name args =>
    -- the receiver is there before and after, or it is not
    have habsent : receiver.core = .absent ↔ receiver = .absent := by
      constructor
      · exact fun h => he.1.resolve_right fun hwhole => core_ne_absent receiver hwhole h
      · rintro rfl
        rfl
    have hcallee : callee receiver.core name = callee receiver name := by
      simp only [callee, habsent]
    have hargs : args.map core = [] ↔ args = [] := List.map_eq_nil_iff
    refine ⟨?_, ?_⟩
    · rw [core, outline, outline, frame, frame, hcallee, List.map_cons, List.map_cons,
        coreAll_eq_map]
      exact congrArg _ (outline_row _ _ _ _ args)
    · simp only [core, frame, hcallee, coreAll_eq_map, hargs]
  | unary s op operand =>
    refine ⟨?_, rfl⟩
    simp [core, outline, frame, words_signGap]
  | paren s inner => exact absurd ⟨s, inner, rfl⟩ hnode
  | binary s op left right => exact ⟨rfl, rfl⟩
  | chain s op operands =>
    refine ⟨?_, rfl⟩
    rw [core, coreAll_eq_map]
    exact outline_row _ _ _ _ operands
  | _ => exact ⟨rfl, rfl⟩

/-- The output of a node in words. -/
theorem words_fill (e : Expr) (bodies : List (List Fragment)) :
    words (e.frame.fill bodies) =
      weave ((e.outline id).map (·.1)) (bodies.map words) ++ words e.frame.close := by
  have hleads : (e.outline id).map (·.1) = e.frame.leads.map words := by
    rw [outline, Frame.leads, List.map_map, List.map_map]
    rfl
  have hweave : ∀ leads bodies : List (List Fragment),
      words (weave leads bodies) = weave (leads.map words) (bodies.map words) := by
    intro leads
    induction leads with
    | nil => exact fun _ => rfl
    | cons lead leads ih =>
      intro bodies
      cases bodies with
      | nil => rfl
      | cons body bodies =>
        rw [weave_cons, words_append, words_append, ih, ← weave_cons, List.map_cons, List.map_cons]
  rw [Frame.fill, words_append, hweave, hleads]

/-- A child in its parentheses, or without them. -/
theorem alike_wrapAt (position : Option Position) (form : Form) (fs : List Fragment) :
    Alike (words (wrapAt position form fs)) (words fs) := by
  cases position with
  | none => exact .refl _
  | some position =>
    change Alike (words (wrap position form fs)) (words fs)
    unfold wrap
    split
    · rw [words_append]
      exact .parens (words fs)
    · exact .refl _

theorem alike_body (s : Slot) : Alike (words s.body) (words s.child.fragments) := alike_wrapAt _ _ _

/-- **The output of a core** has the same words as the output of the tree. -/
theorem alike_core (e : Expr) (he : e.Printable) :
    Alike (words e.fragments) (words e.core.fragments) := by
  induction e using induct_slots with
  | step e ih =>
    by_cases hnode : e.IsParen
    · obtain ⟨s, inner, rfl⟩ := hnode
      rw [fragments, words_append]
      exact (Alike.parens _).trans (ih ⟨[.text "("], none, inner⟩ List.mem_cons_self he)
    · obtain ⟨houtline, hclose⟩ := outline_core he hnode
      have hleads : (e.core.outline id).map (·.1) = (e.outline id).map (·.1) := by
        rw [houtline, outline, outline, List.map_map, List.map_map]
        rfl
      -- what is printed of a child depends on its position and on the child
      have hbodies : e.core.bodies = e.frame.slots.map fun s =>
          wrapAt s.position s.child.core.form s.child.core.fragments := by
        have hmap := congrArg (List.map fun x => wrapAt x.2.1 x.2.2.form x.2.2.fragments) houtline
        rwa [outline, outline, List.map_map, List.map_map] at hmap
      rw [fragments_eq_fill, fragments_eq_fill, words_fill, words_fill, hleads, hclose]
      refine (Alike.weave ?_ ?_).append (.refl _)
      · rw [bodies, hbodies, List.map_map, List.map_map, List.forall₂_map_left_iff,
          List.forall₂_map_right_iff, List.forall₂_same]
        intro s hs
        refine (alike_body s).trans (Alike.trans ?_ (alike_wrapAt _ _ _).symm)
        rcases printable_slots he s hs with habsent | hchild
        · rw [habsent]
          exact .refl _
        · exact ih s hs hchild
      · rw [bodies, outline, List.length_map, List.length_map, List.length_map, List.length_map]

/-- **Trees with the same core** have outputs that differ in parentheses only. -/
theorem alike_of_core {e t : Expr} (he : e.Printable) (ht : t.Printable) (h : e.core = t.core) :
    Alike (words e.fragments) (words t.fragments) :=
  (h ▸ alike_core e he).trans (alike_core t ht).symm

/-! ### Words of its own -/

theorem turn_of_hasText {text : String} {kind : TokenKind} (hkind : kind.hasText = true)
    (h : Lexeme.kindOf? text = some kind) : (Word.of text).turn = 0 := by
  rw [Word.of_eq h]
  cases kind <;> first | rfl | exact nomatch hkind

theorem turn_operator (op : BinaryOp) : (Word.of op.symbol).turn = 0 := by cases op <;> decide

theorem turn_unary (op : UnaryOp) : (Word.of op.symbol).turn = 0 := by cases op <;> decide

/-- A word that is no parenthesis is a mark. -/
theorem marks_ne_nil {w : Word} {ws : List Word} (hw : w ∈ ws) (hturn : w.turn = 0) :
    marks ws ≠ [] :=
  List.ne_nil_of_mem (List.mem_filter.mpr ⟨hw, decide_eq_true hturn⟩)

/-- All the words that a node writes of itself. -/
def ownWords (e : Expr) : List Word := ((e.outline id).map (·.1)).flatten ++ words e.frame.close

/-- Two operands have their operator between them. -/
theorem mem_ownWords_row {op : BinaryOp} {e x : Expr} {es : List Expr} :
    Word.of op.symbol ∈ (((operandSlots op (e :: x :: es)).map fun s => words s.lead)).flatten := by
  simp [operandSlots, Slot.row, between]

/-- **A node that is no parenthesis has a word of its own.** -/
theorem marks_own {e : Expr} (he : e.Printable) (hnode : ¬e.IsParen) : marks e.ownWords ≠ [] := by
  -- every node but a parenthesis has a word of its own that no other kind of node has
  have hmem : ∃ w ∈ e.ownWords, w.turn = 0 := by
    cases e with
    | absent => exact he.elim
    | error s => exact he.elim
    | literal s literal text =>
      obtain ⟨kind, hkind, htext⟩ := IsLiteral.kind he
      exact ⟨.of text, List.mem_cons_self, turn_of_hasText hkind htext⟩
    | ident s name => exact ⟨.of name, List.mem_cons_self, turn_of_hasText rfl he⟩
    | call s receiver name args =>
      refine ⟨.of name, ?_, turn_of_hasText rfl he.2.1⟩
      have hcallee : Word.of name ∈ words (callee receiver name) := by simp [callee]
      cases args with
      | nil => simp [ownWords, outline, frame, Slot.row, hcallee]
      | cons arg args => simp [ownWords, outline, frame, Slot.row, hcallee]
    | field s receiver name =>
      exact ⟨.of name, by simp [ownWords, frame], turn_of_hasText rfl he.2⟩
    | unary s op operand => exact ⟨.of op.symbol, by simp [ownWords, outline, frame], turn_unary op⟩
    | paren s inner => exact absurd ⟨s, inner, rfl⟩ hnode
    | binary s op left right =>
      refine ⟨.of op.symbol, ?_, turn_operator op⟩
      rw [ownWords, outline, List.map_map]
      exact List.mem_append_left _ mem_ownWords_row
    | chain s op operands =>
      refine ⟨.of op.symbol, ?_, turn_operator op⟩
      obtain ⟨hlength, -⟩ := he
      rcases operands with - | ⟨x, - | ⟨y, es⟩⟩
      · exact absurd hlength (by simp)
      · exact absurd hlength (by simp)
      · rw [ownWords, outline, List.map_map]
        exact List.mem_append_left _ mem_ownWords_row
    | conditional s cond yes no => exact ⟨.of "?", by simp [ownWords, outline, frame], by decide⟩
  obtain ⟨w, hw, hturn⟩ := hmem
  exact marks_ne_nil hw hturn

/-! ### Two nodes with the same core -/

section Pair

variable {e t : Expr} (he : e.Printable) (ht : t.Printable) (hnode : ¬e.IsParen)
    (hnode' : ¬t.IsParen)
  (hcore : e.core = t.core)

include he ht hnode hnode' hcore

theorem outline_eq_of_core :
    e.outline core = t.outline core ∧ words e.frame.close = words t.frame.close := by
  obtain ⟨houtline, hclose⟩ := outline_core he hnode
  obtain ⟨houtline', hclose'⟩ := outline_core ht hnode'
  rw [hcore] at houtline hclose
  exact ⟨houtline.symm.trans houtline', hclose.symm.trans hclose'⟩

/-- **The slots of the two belong together.** -/
theorem slots_of_core {i : Nat} {s : Slot} (hs : e.frame.slots[i]? = some s) :
    ∃ s', t.frame.slots[i]? = some s' ∧ s'.position = s.position ∧ s.child.core = s'.child.core ∧
      Alike (words s.body) (words s'.body) := by
  obtain ⟨houtline, -⟩ := outline_eq_of_core he ht hnode hnode' hcore
  have hat := congrArg (·[i]?) houtline
  simp only [outline, List.getElem?_map, hs, Option.map_some] at hat
  obtain ⟨s', hs', hsame⟩ := Option.map_eq_some_iff.mp hat.symm
  obtain ⟨-, hrest⟩ := Prod.mk.inj hsame
  obtain ⟨hposition, hchild⟩ := Prod.mk.inj hrest
  refine ⟨s', hs', hposition, hchild.symm,
    (alike_body s).trans (Alike.trans ?_ (alike_body s').symm)⟩
  -- a child is missing on both sides or on none, since a core is never missing
  rcases printable_slots he s (List.mem_of_getElem? hs) with habsent | hprintable
  · rcases printable_slots ht s' (List.mem_of_getElem? hs') with habsent' | hprintable'
    · rw [habsent, habsent']
      exact .refl _
    · -- there is something left of the one, and nothing of the other
      rw [habsent] at hchild
      exact absurd hchild (core_ne_absent _ hprintable')
  · rcases printable_slots ht s' (List.mem_of_getElem? hs') with habsent' | hprintable'
    · rw [habsent'] at hchild
      exact absurd hchild.symm (core_ne_absent _ hprintable)
    · exact alike_of_core hprintable hprintable' hchild.symm

/-- **A node, and one whose children are printed otherwise.** If the outputs of the two are shifted
against each other, there is no shift, neither of the nodes nor of their children. -/
theorem shifted_slots {outputs : List (List Fragment)}
    (houtputs : List.Forall₂ (fun s fs => Alike (words fs) (words s.body)) e.frame.slots outputs)
    {k : Int} (h : Shifted k (words (e.frame.fill outputs)) (words t.fragments)) :
    k = 0 ∧ List.Forall₂ (fun fs s' => Shifted 0 (words fs)
      (words s'.body)) outputs t.frame.slots := by
  obtain ⟨houtline, hclose⟩ := outline_eq_of_core he ht hnode hnode' hcore
  have hleads : (e.outline id).map (·.1) = (t.outline id).map (·.1) := by
    have hmap := congrArg (List.map (·.1)) houtline
    simp only [outline, List.map_map] at hmap ⊢
    exact hmap
  have hlengths : e.frame.slots.length = t.frame.slots.length := by
    have hmap := congrArg List.length houtline
    rwa [outline, outline, List.length_map, List.length_map] at hmap
  rw [fragments_eq_fill, words_fill, words_fill, ← hleads, ← hclose] at h
  -- each output is like that of the other node, since both are like the output of the child
  have halike : List.Forall₂ Alike (outputs.map words) (t.bodies.map words) := by
    rw [bodies, List.map_map, List.forall₂_map_left_iff, List.forall₂_map_right_iff,
      List.forall₂_iff_get]
    refine ⟨houtputs.length_eq.symm.trans hlengths, fun i hi hi' => ?_⟩
    have hs : i < e.frame.slots.length := by rwa [hlengths]
    obtain ⟨s', hs', -, -, hbody⟩ :=
      slots_of_core he ht hnode hnode' hcore (List.getElem?_eq_getElem hs)
    obtain rfl : t.frame.slots[i] = s' :=
      Option.some.inj ((List.getElem?_eq_getElem hi').symm.trans hs')
    exact (houtputs.get hs hi).trans hbody
  have hlength : ((e.outline id).map (·.1)).length = (outputs.map words).length := by
    rw [List.length_map, List.length_map, outline, List.length_map, houtputs.length_eq]
  obtain ⟨hchildren, hown⟩ := shifted_weave halike hlength h
  obtain rfl := hown (marks_own he hnode)
  rw [bodies, List.map_map, List.forall₂_map_left_iff, List.forall₂_map_right_iff] at hchildren
  exact ⟨rfl, hchildren⟩

end Pair

end Expr

end OperandOrder
