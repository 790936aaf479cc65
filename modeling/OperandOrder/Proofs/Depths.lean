import OperandOrder.Proofs.Frames
import OperandOrder.Proofs.Token.Spelling

/-!
# How deep the words of an output stand

Parentheses that are added to an output move some of its words to a deeper level, and its other
words stay as they are. So two outputs with the same words otherwise (`Alike`) can be told apart by
the depths of these words (`depths`). What is used of depths is that one output is a shift of the
other: `Shifted k us vs` says that each word of `us` stands `k` levels deeper than in `vs`, counted
from the places where the two begin.

A shift passes from the output of a node to the outputs of its children, and there is none if the
node has a word of its own (`shifted_weave`).
-/

namespace OperandOrder

/-- How many levels deeper the word leads. -/
def Word.turn (w : Word) : Int :=
  match w.kind with
  | .leftParen => 1
  | .rightParen => -1
  | _ => 0

/-- How many levels deeper one stands behind several words. -/
def rise : List Word → Int
  | [] => 0
  | w :: ws => w.turn + rise ws

/-- The words that are no parentheses. -/
def marks (ws : List Word) : List Word := ws.filter fun w => w.turn = 0

/-- **The depths of the words that are no parentheses,** read from a given depth on. -/
def depths : Int → List Word → List Int
  | _, [] => []
  | d, w :: ws => if w.turn = 0 then d :: depths d ws else depths (d + w.turn) ws

@[simp] theorem rise_nil : rise [] = 0 := rfl

@[simp] theorem rise_append (us vs : List Word) : rise (us ++ vs) = rise us + rise vs := by
  induction us with
  | nil => rw [List.nil_append, rise_nil, Int.zero_add]
  | cons w us ih => rw [List.cons_append, rise, rise, ih, Int.add_assoc]

@[simp] theorem marks_append (us vs : List Word) : marks (us ++ vs) = marks us ++ marks vs :=
  List.filter_append us vs

/-- The depths of two texts, the second from where the first has left off. -/
theorem depths_append (d : Int) (us vs : List Word) :
    depths d (us ++ vs) = depths d us ++ depths (d + rise us) vs := by
  induction us generalizing d with
  | nil => rw [rise_nil, Int.add_zero]; rfl
  | cons w us ih =>
    rw [List.cons_append, depths, depths, rise]
    split
    next hturn => rw [ih, hturn, Int.zero_add, List.cons_append]
    next => rw [ih, Int.add_assoc]

/-- Each mark has a depth. -/
theorem length_depths (d : Int) (ws : List Word) : (depths d ws).length = (marks ws).length := by
  induction ws generalizing d with
  | nil => rfl
  | cons w ws ih =>
    rw [depths, marks, List.filter_cons]
    split
    next hturn => rw [if_pos (decide_eq_true hturn), List.length_cons, List.length_cons, ih, marks]
    next hturn => rw [if_neg (by simpa using hturn), ih, marks]

/-- All depths are counted from the one in front. -/
theorem depths_add (d k : Int) (ws : List Word) :
    depths (d + k) ws = (depths d ws).map (· + k) := by
  induction ws generalizing d with
  | nil => rfl
  | cons w ws ih =>
    rw [depths, depths]
    split
    next => rw [ih, List.map_cons]
    next => rw [← ih, Int.add_right_comm]

/-! ### Outputs that differ in parentheses -/

/-- **Outputs with the same words,** parentheses apart, that end as deep. -/
structure Alike (us vs : List Word) : Prop where
  rise : rise us = rise vs
  marks : marks us = marks vs

namespace Alike

variable {us us' vs vs' ws : List Word}

theorem refl (us : List Word) : Alike us us := ⟨rfl, rfl⟩

theorem symm (h : Alike us vs) : Alike vs us := ⟨h.rise.symm, h.marks.symm⟩

theorem trans (h : Alike us vs) (h' : Alike vs ws) : Alike us ws :=
  ⟨h.rise.trans h'.rise, h.marks.trans h'.marks⟩

theorem append (h : Alike us vs) (h' : Alike us' vs') : Alike (us ++ us') (vs ++ vs') :=
  ⟨by rw [rise_append, rise_append, h.rise, h'.rise],
    by rw [marks_append, marks_append, h.marks, h'.marks]⟩

/-- A pair of parentheses makes no difference. -/
theorem parens (ws : List Word) : Alike (.of "(" :: ws ++ [.of ")"]) ws := by
  have hopen : OperandOrder.rise [.of "("] = 1 := by decide
  have hclose : OperandOrder.rise [.of ")"] = -1 := by decide
  refine ⟨?_, ?_⟩
  · rw [← List.singleton_append, rise_append, rise_append, hopen, hclose]
    omega
  · rw [← List.singleton_append, marks_append, marks_append]
    change [] ++ OperandOrder.marks ws ++ [] = _
    rw [List.nil_append, List.append_nil]

/-- **Texts that are alike, put between the same words,** are alike. -/
theorem weave {leads : List (List Word)} {bodies bodies' : List (List Word)}
    (h : List.Forall₂ Alike bodies bodies') (hlength : leads.length = bodies.length) :
    Alike (OperandOrder.weave leads bodies) (OperandOrder.weave leads bodies') := by
  induction h generalizing leads with
  | nil =>
    obtain rfl := List.length_eq_zero_iff.mp hlength
    exact refl _
  | cons hbody _ ih =>
    obtain ⟨lead, leads, rfl⟩ := List.exists_cons_of_length_eq_add_one hlength
    rw [weave_cons, weave_cons]
    exact (refl lead).append (hbody.append (ih (Nat.succ.inj hlength)))

end Alike

/-! ### Shifts -/

/-- **The words of `us` stand `k` levels deeper** than those of `vs`. -/
def Shifted (k : Int) (us vs : List Word) : Prop := depths 0 us = depths k vs

variable {k : Int} {us us' vs vs' ws : List Word}

/-- It does not matter where the two begin. -/
theorem shifted_iff (d : Int) : Shifted k us vs ↔ depths d us = depths (d + k) vs := by
  have hus := depths_add 0 d us
  have hvs := depths_add k d vs
  rw [Int.zero_add] at hus
  rw [Int.add_comm d k, hus, hvs]
  have hinjective : Function.Injective (List.map (· + d)) :=
    List.map_injective_iff.mpr fun a b hab => add_right_cancel hab
  exact hinjective.eq_iff.symm

/-- **A shift of the whole is a shift of its parts.** -/
theorem Shifted.split (h : Shifted k (us ++ us') (vs ++ vs')) (halike : Alike us vs) :
    Shifted k us vs ∧ Shifted k us' vs' := by
  unfold Shifted at h
  rw [depths_append, depths_append] at h
  have hlength : (depths 0 us).length = (depths k vs).length := by
    rw [length_depths, length_depths, halike.marks]
  obtain ⟨hfirst, hsecond⟩ := List.append_inj h hlength
  refine ⟨hfirst, (shifted_iff (rise us)).mpr ?_⟩
  rw [halike.rise, Int.add_comm (rise vs) k, ← hsecond, halike.rise, Int.zero_add]

/-- **What is shifted against itself** is not shifted at all, if it has a word. -/
theorem Shifted.eq_zero (h : Shifted k ws ws) (hmarks : marks ws ≠ []) : k = 0 := by
  have hadd := depths_add 0 k ws
  rw [Int.zero_add, ← h] at hadd
  have hlength := length_depths 0 ws
  cases hdepths : depths 0 ws with
  | nil =>
    rw [hdepths] at hlength
    exact absurd (List.length_eq_zero_iff.mp hlength.symm) hmarks
  | cons d ds =>
    rw [hdepths, List.map_cons] at hadd
    have hhead := (List.cons.inj hadd).1
    omega

/-- A pair of parentheses on the left is one level. -/
theorem shifted_parens_left (h : Shifted k (.of "(" :: us ++ [.of ")"]) vs) :
    Shifted (k - 1) us vs := by
  have hparens : depths 0 (.of "(" :: us ++ [.of ")"]) = depths 1 us := by
    change depths (0 + 1) (us ++ [.of ")"]) = depths (0 + 1) us
    rw [depths_append]
    exact List.append_nil _
  rw [Shifted, hparens] at h
  have hlevel : 1 + (k - 1) = k := by omega
  exact (shifted_iff 1).mpr (by rw [hlevel, h])

/-- A pair of parentheses on the right is one level. -/
theorem shifted_parens_right (h : Shifted k us (.of "(" :: vs ++ [.of ")"])) :
    Shifted (k + 1) us vs := by
  have hparens : depths k (.of "(" :: vs ++ [.of ")"]) = depths (k + 1) vs := by
    change depths (k + 1) (vs ++ [.of ")"]) = depths (k + 1) vs
    rw [depths_append]
    exact List.append_nil _
  exact h.trans hparens

/-- **A shift of a node is a shift of its children,** and there is none if the node has a word of
its own. -/
theorem shifted_weave {leads bodies bodies' : List (List Word)} {close : List Word}
    (halike : List.Forall₂ Alike bodies bodies') (hlength : leads.length = bodies.length)
    (h : Shifted k (weave leads bodies ++ close) (weave leads bodies' ++ close)) :
    List.Forall₂ (Shifted k) bodies bodies' ∧ (marks (leads.flatten ++ close) ≠ [] → k = 0) := by
  induction halike generalizing leads with
  | nil =>
    obtain rfl := List.length_eq_zero_iff.mp hlength
    exact ⟨.nil, fun hmarks => Shifted.eq_zero h hmarks⟩
  | cons hbody _ ih =>
    obtain ⟨lead, leads, rfl⟩ := List.exists_cons_of_length_eq_add_one hlength
    rw [weave_cons, weave_cons, List.append_assoc, List.append_assoc, List.append_assoc,
      List.append_assoc] at h
    -- the words split where the leads and bodies do, as they are alike piece by piece
    obtain ⟨hlead, h⟩ := h.split (.refl lead)
    obtain ⟨hfirst, h⟩ := h.split hbody
    obtain ⟨hothers, hown⟩ := ih (Nat.succ.inj hlength) h
    refine ⟨.cons hfirst hothers, fun hmarks => ?_⟩
    rw [List.flatten_cons, List.append_assoc, marks_append] at hmarks
    -- the first lead with a mark decides how far it is shifted
    by_cases hnone : marks lead = []
    · rw [hnone, List.nil_append] at hmarks
      exact hown hmarks
    · exact hlead.eq_zero hnone

end OperandOrder
