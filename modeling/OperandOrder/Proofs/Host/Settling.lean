import Mathlib.Logic.Function.Iterate
import OperandOrder.Proofs.Host.Checking

/-!
# When a reordered file passes

Canonical form is a fixed point on trees. On files it is not: there are lines that a second run
changes again (`reordered_not_passing`). Operands are compared by the length of the text they were
read from and by the number of their nodes, and printing changes both, the one by spacing anew and
the other by putting in parentheses. What does hold is `reordering_settles`.

* A second run finds no errors. It changes nothing, and the file passes, exactly if every line
  *settles* (`Settles`): its canonical form, with its parentheses put in and every node as long as
  it is printed, is not changed. A line settles if it was spaced as it is printed and takes no more
  parentheses (`settles_of_even`).
* Enough runs always come to a file that passes. After the first one lines are spaced as they are
  printed, so a line that is changed once more takes a parenthesis, and then it has fewer loose
  nodes (`Roomy.settled_or_fewer`). So a line takes at most two runs more than it has loose nodes.
-/

namespace OperandOrder

open Lines

variable (policy : Policy)

/-! ### The second run -/

/-- **A line that settles:** once it has been reordered and printed, nothing is left to be
reordered. -/
def Settles (text : List Char) : Prop :=
  ((readLine text).expr.canonical policy).changed = true →
    (((readLine text).expr.canonical policy).expr.explicit.ruled.canonical policy).changed = false

/-- **A line that was spaced as it is printed settles,** if it takes no more parentheses. -/
theorem settles_of_even {text : List Char} (heven : (readLine text).expr.Even)
    (hexplicit : ((readLine text).expr.canonical policy).expr.explicit =
      ((readLine text).expr.canonical policy).expr) : Settles policy text := by
  intro _
  rw [hexplicit, Expr.changed_ruled policy _ (Expr.even_canonical policy _ heven),
    Expr.canonical_canonical]

/-- **What a second run finds on a line:** no errors, and something to change unless the
line settles. -/
theorem readLine_afterRun {text : List Char} (hexpression : isExpression text = true)
    (herrors : (readLine text).errors = [])
    (hwidth : Text.width (afterRun policy text) ≤ Span.limit) :
    (readLine (afterRun policy text)).errors = [] ∧
      (((readLine (afterRun policy text)).expr.canonical policy).changed = false ↔
        Settles policy text) := by
  rcases afterRun_cases policy hexpression herrors with ⟨hunchanged, hsame⟩ | ⟨hchanged, hnew⟩
  · rw [hsame]
    refine ⟨herrors, iff_of_true hunchanged fun hchanged => ?_⟩
    exact absurd (hunchanged.symm.trans hchanged) Bool.false_ne_true
  · rw [hnew] at hwidth ⊢
    obtain ⟨hclean, hbare, heven⟩ := readLine_reprint policy herrors hwidth
    refine ⟨hclean, ?_⟩
    -- what is compared on the second run is the canonical form as it is printed
    rw [← Expr.changed_ruled policy _ heven, ← Expr.ruled_bare, hbare, Expr.ruled_bare, Settles]
    exact ⟨fun hstill _ => hstill, fun hsettles => hsettles hchanged⟩

/-! ### Line by line -/

/-- What holds of the lines after a run holds of what becomes of the lines before it. -/
theorem forall_afterRun_iff (source : String) (p : List Char → Prop) :
    (∀ line ∈ expressionLines (reorderedText policy none source), p line.text) ↔
      ∀ line ∈ expressionLines source, p (afterRun policy line.text) := by
  have htexts := map_text_amended (keepsLines_reprinted policy .everywhere) source
  have hlines : ∀ lines : List SourceLine,
      (∀ line ∈ lines, p line.text) ↔ ∀ text ∈ lines.map (·.text), p text :=
    fun lines => List.forall_mem_map.symm
  rw [reorderedText_eq, hlines, Option.getD_none, htexts, List.forall_mem_map]
  rfl

/-- The same after several runs. -/
theorem forall_iterate_afterRun_iff (n : Nat) (source : String) (p : List Char → Prop) :
    (∀ line ∈ expressionLines ((reorderedText policy none)^[n] source), p line.text) ↔
      ∀ line ∈ expressionLines source, p ((afterRun policy)^[n] line.text) := by
  induction n generalizing source with
  | zero => exact Iff.rfl
  | succ n ih =>
    simp only [Function.iterate_succ_apply]
    rw [ih, forall_afterRun_iff policy source fun text => p ((afterRun policy)^[n] text)]

/-- What holds of all lines after a run is said of the lines before it. -/
theorem forall_text_reorderSource_iff (source : String) (p : List Char → Prop) :
    (∀ line ∈ reorderSource policy none source, p line.text.toList) ↔
      ∀ line ∈ expressionLines source, p (afterRun policy line.text) := by
  rw [reorderSource, List.forall_mem_map]
  refine forall₂_congr fun line hline => ?_
  obtain ⟨-, -, -, hexpression⟩ := mem_text_expressionLines hline
  rw [SourceLine.reorder_eq, afterRun, amendText, if_pos hexpression, Option.getD_none]
  cases reprinted? policy .everywhere line.text with
  | none => rw [Option.getD_none, String.toList_ofList]; rfl
  | some new => exact Iff.rfl

/-- Where there are no errors, no line is changed if and only if the file passes. -/
theorem forall_unchanged_reorderSource_iff {source : String}
    (herrors : ∀ line ∈ expressionLines source, (readLine line.text).errors = []) :
    (∀ line ∈ reorderSource policy none source, line.changed = false) ↔ Passes policy source := by
  rw [reorderSource, List.forall_mem_map, passes_iff]
  refine forall₂_congr fun line hline => ?_
  have herrors := herrors line hline
  rw [and_iff_right herrors, SourceLine.reorder_eq, Option.getD_none,
    reprinted?_everywhere policy herrors]
  by_cases hchanged : ((readLine line.text).expr.canonical policy).changed = true
  · rw [if_pos hchanged, hchanged]
    exact Iff.rfl
  · rw [if_neg hchanged]
    exact iff_of_true rfl (by simpa using hchanged)

/-! ### Further runs -/

/-- **A line with room** for every parenthesis that could be put in. -/
structure Roomy (text : List Char) : Prop where
  isExpression : isExpression text = true
  errors : (readLine text).errors = []
  room : Text.width (Text.indent text) + (readLine text).expr.reach ≤ Span.limit

namespace Roomy

variable {text : List Char}

/-- The canonical form of a line with room is printed within the limit. -/
theorem width_reprint_le (h : Roomy text) : Text.width (reprint policy text) ≤ Span.limit := by
  have hroom := h.room
  have hle := Expr.width_fragments_le_reach ((readLine text).expr.canonical policy).expr
  have hprint : Text.width ((readLine text).expr.canonical policy).expr.print.toList =
      Fragment.width ((readLine text).expr.canonical policy).expr.fragments :=
    congrArg Text.width String.toList_ofList
  rw [Expr.reach_canonical] at hle
  rw [reprint, Text.width_append, hprint]
  omega

/-- **A run leaves as much room.** -/
theorem next (h : Roomy text) : Roomy (afterRun policy text) := by
  rcases afterRun_cases policy h.isExpression h.errors with ⟨-, hsame⟩ | ⟨-, hnew⟩
  · rwa [hsame]
  · rw [hnew]
    obtain ⟨hclean, hbare, -⟩ := readLine_reprint policy h.errors (h.width_reprint_le policy)
    have hone : Expr.OneLine ((readLine text).expr.canonical policy).expr.print.toList :=
      Expr.oneLine_print _ (Expr.isWhole_canonical policy _ (printable_parse h.errors))
    have hexplicit := (derives_of_parse hclean).2.explicit
    refine ⟨isExpression_append hone, hclean, ?_⟩
    -- the indentation stays, and what the tree gains in breadth it loses in loose nodes
    rw [Expr.reach_of_bare hbare hexplicit, Expr.reach_canonical, reprint, (indent_append hone).1]
    exact h.room

theorem iterate (h : Roomy text) (n : Nat) : Roomy ((afterRun policy)^[n] text) := by
  induction n generalizing text with
  | zero => exact h
  | succ n ih => exact ih (h.next policy)

/-- A line that canonical form does not change stays as it is, run by run. -/
theorem iterate_of_unchanged (h : Roomy text)
    (hunchanged : ((readLine text).expr.canonical policy).changed = false) (n : Nat) :
    (afterRun policy)^[n] text = text := by
  rcases afterRun_cases policy h.isExpression h.errors with ⟨-, hsame⟩ | ⟨hchanged, -⟩
  · exact Function.iterate_fixed hsame n
  · exact absurd (hunchanged.symm.trans hchanged) Bool.false_ne_true

/-- **A line that is changed comes out spaced as it is printed,** with the loose nodes that its
parentheses leave it. -/
theorem even_of_changed (h : Roomy text)
    (hchanged : ((readLine text).expr.canonical policy).changed = true) :
    (readLine (afterRun policy text)).expr.Even ∧
      (readLine (afterRun policy text)).expr.loose =
        ((readLine text).expr.canonical policy).expr.explicit.loose := by
  rcases afterRun_cases policy h.isExpression h.errors with ⟨hunchanged, -⟩ | ⟨-, hnew⟩
  · exact absurd (hunchanged.symm.trans hchanged) Bool.false_ne_true
  · obtain ⟨-, hbare, heven⟩ := readLine_reprint policy h.errors (h.width_reprint_le policy)
    rw [hnew]
    exact ⟨heven, by rw [← Expr.loose_bare, hbare, Expr.loose_bare]⟩

/-- **A line that is spaced as it is printed** comes out for good, or else with fewer
loose nodes. -/
theorem settled_or_fewer (h : Roomy text) (heven : (readLine text).expr.Even) :
    ((readLine (afterRun policy text)).expr.canonical policy).changed = false ∨
      ((readLine (afterRun policy text)).expr.Even ∧
        (readLine (afterRun policy text)).expr.loose < (readLine text).expr.loose) := by
  rcases afterRun_cases policy h.isExpression h.errors with ⟨hunchanged, hsame⟩ | ⟨hchanged, hnew⟩
  · exact .inl (by rwa [hsame])
  · -- without a new parenthesis the comparisons come out as before
    by_cases hexplicit : ((readLine text).expr.canonical policy).expr.explicit =
        ((readLine text).expr.canonical policy).expr
    · have hwidth : Text.width (afterRun policy text) ≤ Span.limit := by
        rw [hnew]
        exact h.width_reprint_le policy
      have hsecond := (readLine_afterRun policy h.isExpression h.errors hwidth).2
      exact .inl (hsecond.mpr (settles_of_even policy heven hexplicit))
    · obtain ⟨heven', hloose⟩ := h.even_of_changed policy hchanged
      refine .inr ⟨heven', ?_⟩
      rw [hloose, ← Expr.loose_canonical policy (readLine text).expr]
      exact Expr.loose_explicit_lt hexplicit

/-- **A line that is spaced as it is printed** takes no more runs than it has loose nodes,
and one. -/
theorem unchanged_of_even (h : Roomy text) (heven : (readLine text).expr.Even) {n : Nat}
    (hn : (readLine text).expr.loose < n) :
    ((readLine ((afterRun policy)^[n] text)).expr.canonical policy).changed = false := by
  -- on the number of runs: each one settles the line or leaves fewer loose nodes than there are
  -- runs to come
  induction n generalizing text with
  | zero => exact absurd hn (Nat.not_lt_zero _)
  | succ n ih =>
    rw [Function.iterate_succ_apply]
    rcases h.settled_or_fewer policy heven with hsettled | ⟨heven', hfewer⟩
    · rwa [(h.next policy).iterate_of_unchanged policy hsettled]
    · exact ih (h.next policy) heven' (by omega)

/-- **Any line with room** takes one more, to be spaced anew. -/
theorem unchanged_iterate (h : Roomy text) {n : Nat} (hn : (readLine text).expr.loose + 1 < n) :
    ((readLine ((afterRun policy)^[n] text)).expr.canonical policy).changed = false := by
  by_cases hchanged : ((readLine text).expr.canonical policy).changed = true
  · -- the first run may see any spacing; the others see the one that it leaves
    obtain ⟨heven, hloose⟩ := h.even_of_changed policy hchanged
    have hle := Expr.loose_explicit_le ((readLine text).expr.canonical policy).expr
    rw [Expr.loose_canonical] at hle
    obtain ⟨m, rfl⟩ := Nat.exists_eq_add_one_of_ne_zero (Nat.ne_zero_of_lt hn)
    rw [Function.iterate_succ_apply]
    exact (h.next policy).unchanged_of_even policy heven (by omega)
  · have hunchanged : ((readLine text).expr.canonical policy).changed = false := by
      simpa using hchanged
    rwa [h.iterate_of_unchanged policy hunchanged]

end Roomy

/-! ### Files -/

/-- **What running again does to a file without errors.** If its lines are within the limit when
they come out, a second run finds no errors, and it changes nothing, so that the file passes,
exactly if every line settles. If there is room for more parentheses, the file passes after as many
runs as a line has loose nodes, and two. -/
theorem reordering_settles (options : Options) (path source : String)
    (herrors : ∀ line ∈ reorderSource options.policy none source, line.errors = []) :
    ((∀ line ∈ reorderSource options.policy none source, Text.width line.text.toList ≤ Span.limit) →
      (∀ line ∈ reorderSource options.policy none (reorderedText options.policy none source),
        line.errors = []) ∧
      ((∀ line ∈ reorderSource options.policy none (reorderedText options.policy none source),
        line.changed = false) ↔ ∀ line ∈ expressionLines source, Settles options.policy line.text) ∧
      ((checkResponse options path (reorderedText options.policy none source)).code = 0 ↔
        ∀ line ∈ expressionLines source, Settles options.policy line.text)) ∧
    ((∀ line ∈ expressionLines source,
        Text.width (Text.indent line.text) + (readLine line.text).expr.reach ≤ Span.limit) →
      ∀ n, (∀ line ∈ expressionLines source, (readLine line.text).expr.loose + 1 < n) →
        (checkResponse options path
          ((reorderedText options.policy none)^[n] source)).code = 0) := by
  rw [forall_errors_reorderSource_iff] at herrors
  refine ⟨fun hwidth => ?_, fun hroom n hn => ?_⟩
  · have hwidth := (forall_text_reorderSource_iff options.policy source
      fun text => Text.width text ≤ Span.limit).mp hwidth
    have hline : ∀ line ∈ expressionLines source,
        (readLine (afterRun options.policy line.text)).errors = [] ∧
          (((readLine (afterRun options.policy line.text)).expr.canonical options.policy).changed =
            false ↔ Settles options.policy line.text) := by
      intro line hmem
      obtain ⟨-, -, -, hexpression⟩ := mem_text_expressionLines hmem
      exact readLine_afterRun options.policy hexpression (herrors line hmem) (hwidth line hmem)
    -- the lines of the second run are those that the first one left
    have hclean := (forall_afterRun_iff options.policy source
      fun text => (readLine text).errors = []).mpr fun line hmem => (hline line hmem).1
    have hpasses : Passes options.policy (reorderedText options.policy none source) ↔
        ∀ line ∈ expressionLines source, Settles options.policy line.text := by
      rw [passes_iff, forall_afterRun_iff options.policy source fun text =>
        (readLine text).errors = [] ∧
          ((readLine text).expr.canonical options.policy).changed = false]
      refine forall₂_congr fun line hmem => ?_
      rw [and_iff_right (hline line hmem).1, (hline line hmem).2]
    exact ⟨(forall_errors_reorderSource_iff options.policy _).mpr hclean,
      (forall_unchanged_reorderSource_iff options.policy hclean).trans hpasses,
      (code_checkResponse_eq_zero_iff options path _).trans hpasses⟩
  · rw [code_checkResponse_eq_zero_iff, passes_iff,
      forall_iterate_afterRun_iff options.policy n source fun text => (readLine text).errors = [] ∧
        ((readLine text).expr.canonical options.policy).changed = false]
    intro line hmem
    obtain ⟨-, -, -, hexpression⟩ := mem_text_expressionLines hmem
    have hroomy : Roomy line.text := ⟨hexpression, herrors line hmem, hroom line hmem⟩
    exact ⟨(hroomy.iterate options.policy n).errors,
      hroomy.unchanged_iterate options.policy (hn line hmem)⟩

/-- One line that is spaced anew, and one that takes a parenthesis. -/
def restless : String := "(b  ) * (dd)\na - b + c + -ddddddddd\n"

/-- The lines do not settle at once; four runs are enough. -/
theorem reordering_settles_restless :
    (∀ line ∈ reorderSource .standard none restless, line.errors = []) ∧
    (∀ line ∈ reorderSource .standard none restless, Text.width line.text.toList ≤ Span.limit) ∧
    (∀ line ∈ expressionLines restless,
      Text.width (Text.indent line.text) + (readLine line.text).expr.reach ≤ Span.limit) ∧
    (∀ line ∈ expressionLines restless, (readLine line.text).expr.loose + 1 < 4) ∧
    ¬ (∀ line ∈ expressionLines restless, Settles .standard line.text) ∧
    (checkResponse ⟨none, .standard, none, false⟩ "restless"
      ((reorderedText .standard none)^[4] restless)).code = 0 := by
  -- the premises of the theorem are computed, and so is that one run is not enough
  have herrors : ∀ line ∈ reorderSource .standard none restless, line.errors = [] := by
    decide +kernel
  have hwidth : ∀ line ∈ reorderSource .standard none restless,
      Text.width line.text.toList ≤ Span.limit := by decide +kernel
  have hroom : ∀ line ∈ expressionLines restless,
      Text.width (Text.indent line.text) + (readLine line.text).expr.reach ≤ Span.limit := by
    decide +kernel
  have hloose : ∀ line ∈ expressionLines restless, (readLine line.text).expr.loose + 1 < 4 := by
    decide +kernel
  have hfails : (checkResponse ⟨none, .standard, none, false⟩ "restless"
      (reorderedText .standard none restless)).code ≠ 0 := by decide +kernel
  obtain ⟨hsecond, hlater⟩ :=
    reordering_settles ⟨none, .standard, none, false⟩ "restless" restless herrors
  exact ⟨herrors, hwidth, hroom, hloose, mt (hsecond hwidth).2.2.mpr hfails, hlater hroom 4 hloose⟩

/-- **A file that does not pass after a run.** The first line comes out as `(dd) * (b)`, where the
operands are no longer as long as they were; the second one as `c + (a - b) + -ddddddddd`, where the
parenthesis makes one operand heavier. The next run changes both. -/
theorem reordered_not_passing :
    (∀ line ∈ reorderSource .standard none restless, line.errors = []) ∧
    reorderedText .standard none restless = "(dd) * (b)\nc + (a - b) + -ddddddddd\n" ∧
    (reorderSource .standard none (reorderedText .standard none restless)).map
      (fun line => (line.text, line.changed)) =
        [("(b) * (dd)", true), ("c + -ddddddddd + (a - b)", true)] ∧
    (checkResponse ⟨none, .standard, none, false⟩ "restless"
      (reorderedText .standard none restless)).code = 1 := by
  decide +kernel

end OperandOrder
