import OperandOrder.Host.Command
import OperandOrder.Proofs.Host.Lines
import OperandOrder.Proofs.Parser.Placement

/-!
# A file passes if and only if reordering leaves it as it is

`check` and `rewrite` go different ways: one searches every line for opportunities, the other prints
lines anew and puts them in place of the old ones. `check_exact` says that they agree: a file passes
if and only if no line has errors and the file with its lines reordered is the same file, byte for
byte.

The one thing to be shown is that a line that is changed gets another text, although the printer
does not care for the spacing of the line (`reprint_ne`). Suppose that it gets its own text. Then
the line was spaced as the printer does it, so every operand was as long as it is broad
(`parse_indented`). The canonical form is as broad as the tree was, and printed as wide, so no
parenthesis was put in. Hence the tree is its own canonical form but for the places of its nodes,
and those are not seen by the comparisons (`Expr.changed_congr`).
-/

namespace OperandOrder

open Lines

/-! ### The new text of a line -/

/-- What is read from the text of a line. -/
abbrev readLine (text : List Char) : Parsed := parse (String.ofList text)

/-- **The new text of a line,** if reordering changes it. -/
def reprinted? (policy : Policy) (range : Span) (text : List Char) : Option String :=
  let result := (readLine text).expr.reorderWithin policy range
  if (readLine text).errors = [] ∧ result.changed = true then
    some (String.ofList (Text.indent text ++ result.expr.print.toList))
  else none

variable (policy : Policy) (range : Span)

/-- A line is printed anew if it is read without errors and something changes. -/
theorem reprinted?_eq_some_iff {text : List Char} {new : String} :
    reprinted? policy range text = some new ↔
      (readLine text).errors = [] ∧
      ((readLine text).expr.reorderWithin policy range).changed = true ∧
        new = String.ofList (Text.indent text ++
          ((readLine text).expr.reorderWithin policy range).expr.print.toList) := by
  rw [reprinted?, Option.ite_none_right_eq_some, Option.some.injEq, and_assoc, eq_comm (b := new)]

/-- **What becomes of a line,** in terms of its new text. -/
theorem SourceLine.reorder_eq (line : SourceLine) :
    line.reorder policy range =
      ⟨line.number, line.offset, (reprinted? policy range line.text).getD (String.ofList line.text),
        (reprinted? policy range line.text).isSome, (readLine line.text).errors⟩ := by
  unfold SourceLine.reorder SourceLine.unchanged reprinted?
  by_cases herrors : (readLine line.text).errors = []
  · simp only [herrors, List.isEmpty_nil, if_true, true_and]
    split <;> rfl
  · have hfaulty : (readLine line.text).errors.isEmpty = false := by simpa using herrors
    simp only [herrors, hfaulty, false_and, if_false]
    rfl

/-- The changed lines are those with new texts. -/
theorem changed_eq_filterMap (lines : List SourceLine) :
    ((lines.map (SourceLine.reorder policy range)).filter (·.changed)).map
        (fun line => (line.number, line.text)) =
      lines.filterMap fun line => (reprinted? policy range line.text).map (line.number, ·) := by
  induction lines with
  | nil => rfl
  | cons line lines ih =>
    rw [List.map_cons, SourceLine.reorder_eq, List.filter_cons, List.filterMap_cons]
    cases reprinted? policy range line.text with
    | none => exact ih
    | some new => exact congrArg _ ih

/-- **The text after reordering** is the source with the new texts in place. -/
theorem reorderedText_eq (range : Option Span) (source : String) :
    reorderedText policy range source =
      amended (reprinted? policy (range.getD .everywhere)) source := by
  have hchanged := changed_eq_filterMap policy (range.getD .everywhere) (expressionLines source)
  rw [reorderedText, reorderSource, hchanged, replaceLines, amended]
  exact congrArg _ (congrArg _ (replaceFrom_replacements _ 1 0 _))

/-! ### Lines stay lines -/

/-- An indentation is found again, if what stands behind it does not begin with white space. -/
theorem indent_append {text cs : List Char} (h : Expr.OneLine cs) :
    Text.indent (Text.indent text ++ cs) = Text.indent text ∧
      Text.trimStart (Text.indent text ++ cs) = cs := by
  obtain ⟨c, ds, rfl, hc, -⟩ := h.head
  have hblanks : ∀ b ∈ Text.indent text, Text.isBlank b = true :=
    fun b hb => List.mem_takeWhile_imp hb
  have hstop : ¬ Text.isBlank c = true := by simpa using hc
  constructor
  · rw [Text.indent, List.takeWhile_append_of_pos hblanks, List.takeWhile_cons_of_neg hstop,
      List.append_nil]
  · rw [Text.trimStart, List.dropWhile_append_of_pos hblanks, List.dropWhile_cons_of_neg hstop]

/-- A printed tree behind an indentation is an expression line again. -/
theorem isExpression_append {text cs : List Char} (h : Expr.OneLine cs) :
    isExpression (Text.indent text ++ cs) = true := by
  obtain ⟨c, ds, hcs, -, hc⟩ := h.head
  have hcomment : isComment (c :: ds) = false := by
    unfold isComment
    split
    next heq => exact absurd (List.cons.inj heq).1 hc
    next => rfl
  rw [isExpression, (indent_append h).2, hcs, hcomment]
  rfl

/-- What a line without errors becomes is printed within one line. -/
theorem oneLine_reordered {text : List Char} (herrors : (readLine text).errors = []) :
    Expr.OneLine ((readLine text).expr.reorderWithin policy range).expr.print.toList :=
  Expr.oneLine_print _ (Expr.isWhole_reorderWithin policy range _ (printable_parse herrors))

/-- **New texts make lines of their own.** -/
theorem keepsLines_reprinted : KeepsLines (reprinted? policy range) := by
  intro text new hline _ hnew
  obtain ⟨herrors, -, rfl⟩ := (reprinted?_eq_some_iff policy range).mp hnew
  have hone := oneLine_reordered policy range herrors
  rw [String.toList_ofList]
  refine ⟨⟨?_, ?_⟩, isExpression_append hone⟩
  · -- the indentation was part of the line before
    rw [List.mem_append, not_or]
    refine ⟨fun hmem => hline.lineFeed ?_, hone.lineFeed⟩
    exact List.takeWhile_subset _ hmem
  · -- the printed tree is not empty, so the new line ends as it does
    obtain ⟨c, ds, hcs, -, -⟩ := hone.head
    rw [List.getLast?_append_of_ne_nil _ (by rw [hcs]; exact List.cons_ne_nil c ds)]
    exact hone.last

/-! ### A changed line gets another text -/

/-- The canonical form of a line, printed behind its indentation. -/
def reprint (text : List Char) : List Char :=
  Text.indent text ++ ((readLine text).expr.canonical policy).expr.print.toList

/-- **Reading a line that was printed:** it has no errors, what is read is the canonical form with
its parentheses put in, and that is spaced as it is broad. -/
theorem readLine_reprint {text : List Char} (herrors : (readLine text).errors = [])
    (hwidth : Text.width (reprint policy text) ≤ Span.limit) :
    (readLine (reprint policy text)).errors = [] ∧
      (readLine (reprint policy text)).expr.bare =
        ((readLine text).expr.canonical policy).expr.explicit.bare ∧
      (readLine (reprint policy text)).expr.Even := by
  -- not all white space is passed over by the lexer, but what was read without errors has no other
  have hblanks : ∀ c ∈ Text.indent text, Lexeme.isBlank c = true := by
    have hlex := (derives_of_parse herrors).1
    rw [lex, String.toList_ofList] at hlex
    exact isBlank_of_mem_indent _ hlex
  exact parse_indented hblanks (Expr.isWhole_canonical policy _ (printable_parse herrors))
    hwidth rfl

/-- **A line that is changed gets another text.** -/
theorem reprint_ne {text : List Char} (herrors : (readLine text).errors = [])
    (hwidth : Text.width text ≤ Span.limit)
    (hchanged : ((readLine text).expr.canonical policy).changed = true) :
    reprint policy text ≠ text := by
  intro htext
  have hreadback := readLine_reprint policy herrors (by rwa [htext])
  rw [htext] at hreadback
  obtain ⟨-, he⟩ := derives_of_parse herrors
  generalize (readLine text).expr = e at hchanged hreadback he
  obtain ⟨-, hbare, heven⟩ := hreadback
  -- the tree has all its parentheses, and it is printed as its canonical form is
  have hexplicit : e.explicit = e := he.explicit
  have hfragments : e.fragments = (e.canonical policy).expr.fragments := by
    rw [← Expr.fragments_bare e, hbare, Expr.fragments_bare, Expr.fragments_explicit]
  have hsame : (e.canonical policy).expr.explicit = (e.canonical policy).expr := by
    rw [← Expr.width_fragments_eq_iff, ← hfragments, Expr.breadth_canonical]
    exact (Expr.width_fragments_eq_iff e).mpr hexplicit
  rw [hsame] at hbare
  -- so it is the canonical form, which is not changed
  have hagain := Expr.changed_congr policy heven (Expr.even_canonical policy e heven) hbare
  rw [Expr.canonical_canonical] at hagain
  exact Bool.false_ne_true (hagain.symm.trans hchanged)

/-- The new text of a line without errors. -/
theorem reprinted?_everywhere {text : List Char} (herrors : (readLine text).errors = []) :
    reprinted? policy .everywhere text =
      if ((readLine text).expr.canonical policy).changed = true then
        some (String.ofList (reprint policy text))
      else none := by
  rw [reprinted?, reorderWithin_parse policy herrors]
  simp only [herrors, true_and]
  rfl

/-! ### One run -/

/-- **The text of a line after a run.** -/
def afterRun (text : List Char) : List Char := amendText (reprinted? policy .everywhere) text

/-- **What a run does to an expression line** without errors. -/
theorem afterRun_cases {text : List Char} (hexpression : isExpression text = true)
    (herrors : (readLine text).errors = []) :
    (((readLine text).expr.canonical policy).changed = false ∧ afterRun policy text = text) ∨
      (((readLine text).expr.canonical policy).changed = true ∧
        afterRun policy text = reprint policy text) := by
  rw [afterRun, amendText, if_pos hexpression, reprinted?_everywhere policy herrors]
  by_cases hchanged : ((readLine text).expr.canonical policy).changed = true
  · rw [if_pos hchanged]
    exact .inr ⟨hchanged, String.toList_ofList⟩
  · rw [if_neg hchanged]
    exact .inl ⟨by simpa using hchanged, rfl⟩

/-- A line without errors stays as it is if and only if canonical form does not change its tree. -/
theorem afterRun_eq_iff {text : List Char} (hexpression : isExpression text = true)
    (herrors : (readLine text).errors = []) (hwidth : Text.width text ≤ Span.limit) :
    afterRun policy text = text ↔ ((readLine text).expr.canonical policy).changed = false := by
  rcases afterRun_cases policy hexpression herrors with ⟨hunchanged, hsame⟩ | ⟨hchanged, hnew⟩
  · exact iff_of_true hsame hunchanged
  · rw [hnew, hchanged]
    exact iff_of_false (reprint_ne policy herrors hwidth hchanged) nofun

theorem forall_errors_reorderSource_iff (source : String) :
    (∀ line ∈ reorderSource policy none source, line.errors = []) ↔
      ∀ line ∈ expressionLines source, (readLine line.text).errors = [] := by
  rw [reorderSource, List.forall_mem_map]
  simp only [SourceLine.reorder_eq]

/-! ### Passing -/

/-- **A file passes** if nothing is shown on any line and no line has errors. -/
def Passes (source : String) : Prop :=
  ∀ line ∈ highlightSource policy source, line.ranges = [] ∧ line.errors = []

/-- The exit code says whether a file passes. -/
theorem code_checkResponse_eq_zero_iff (options : Options) (path source : String) :
    (checkResponse options path source).code = 0 ↔ Passes options.policy source := by
  have hranges : ((highlightSource options.policy source).flatMap (·.ranges)).length = 0 ↔
      ∀ line ∈ highlightSource options.policy source, line.ranges = [] := by
    rw [List.length_eq_zero_iff, List.flatMap_eq_nil_iff]
  have herrors : ((highlightSource options.policy source).filter (!·.errors.isEmpty)).length = 0 ↔
      ∀ line ∈ highlightSource options.policy source, line.errors = [] := by
    rw [List.length_eq_zero_iff, List.filter_eq_nil_iff]
    simp
  unfold checkResponse
  simp only [hranges, herrors, ← forall₂_and]
  split
  next h => exact iff_of_true rfl h
  next h => exact iff_of_false Nat.one_ne_zero h

/-- **A file passes if and only if canonical form changes none of its lines,** and none
has errors. -/
theorem passes_iff (source : String) :
    Passes policy source ↔ ∀ line ∈ expressionLines source,
      (readLine line.text).errors = [] ∧
        ((readLine line.text).expr.canonical policy).changed = false := by
  rw [Passes, highlightSource, List.forall_mem_map]
  refine forall₂_congr fun line _ => ?_
  have hshown : (line.highlight policy).ranges = [] ↔
      ((readLine line.text).expr.canonical policy).changed = false := by
    rw [← Expr.opportunities_eq_empty_iff, RangeSet.empty]
    exact ⟨fun h => congrArg RangeSet.mk h, fun h => congrArg RangeSet.entries h⟩
  rw [hshown, and_comm]
  rfl

/-- **A file passes if and only if no line has errors and reordering leaves it as it is,** byte for
byte; and a line that is changed always gets another text. -/
theorem check_exact (options : Options) (path source : String)
    (hwidth : ∀ line ∈ expressionLines source, Text.width line.text ≤ Span.limit) :
    ((checkResponse options path source).code = 0 ↔ Passes options.policy source) ∧
    (Passes options.policy source ↔
      (∀ line ∈ reorderSource options.policy none source, line.errors = []) ∧
        reorderedText options.policy none source = source) ∧
    ∀ line ∈ expressionLines source, (line.reorder options.policy .everywhere).changed = true →
      (line.reorder options.policy .everywhere).text ≠ String.ofList line.text := by
  refine ⟨code_checkResponse_eq_zero_iff options path source, ?_, fun line hline hchanged => ?_⟩
  · -- both sides speak of one line after the other
    rw [passes_iff, forall_errors_reorderSource_iff, reorderedText_eq,
      amended_eq_iff (keepsLines_reprinted _ _), ← forall₂_and]
    refine forall₂_congr fun line hline => and_congr_right fun herrors => ?_
    obtain ⟨-, -, -, hexpression⟩ := mem_text_expressionLines hline
    exact (afterRun_eq_iff options.policy hexpression herrors (hwidth line hline)).symm
  · rw [SourceLine.reorder_eq] at hchanged ⊢
    obtain ⟨new, hnew⟩ := Option.isSome_iff_exists.mp hchanged
    obtain ⟨herrors, hmoved, htext⟩ := (reprinted?_eq_some_iff options.policy .everywhere).mp hnew
    rw [reorderWithin_parse options.policy herrors] at hmoved htext
    rw [hnew, htext, Option.getD_some]
    exact mt String.ofList_inj.mp (reprint_ne options.policy herrors (hwidth line hline) hmoved)

/-- A comment, a line that passes, and one that does not and has blanks at its end. -/
def products : String := "// products\n  a * bb\n\t(dd) * b  \r\n"

/-- The second product is out of order, so the file does not pass. -/
theorem check_exact_products :
    (∀ line ∈ expressionLines products, Text.width line.text ≤ Span.limit) ∧
    reorderedText .standard none products = "// products\n  a * bb\n\tb * (dd)\r\n" ∧
    ¬ Passes .standard products ∧
    (checkResponse ⟨none, .standard, none, false⟩ "products" products).code ≠ 0 := by
  have hwidth : ∀ line ∈ expressionLines products, Text.width line.text ≤ Span.limit := by
    decide +kernel
  have hnew : reorderedText .standard none products = "// products\n  a * bb\n\tb * (dd)\r\n" := by
    decide +kernel
  obtain ⟨hcode, hpasses, -⟩ :=
    check_exact ⟨none, .standard, none, false⟩ "products" products hwidth
  have hfails : ¬ Passes .standard products := by
    intro h
    have hsame := (hpasses.mp h).2
    rw [hnew] at hsame
    exact absurd hsame (by decide)
  exact ⟨hwidth, hnew, hfails, mt hcode.mp hfails⟩

end OperandOrder
