import OperandOrder.Proofs.Host.Checking

/-!
# A run changes nothing else

`reordering_frame` goes through a file line by line, before and after a run. A line that holds no
expression, that has errors, or that is reported unchanged is the same, byte for byte. A line that
is reported changed keeps its indentation and its terminator, whatever line feeds and carriage
returns that is, and has the reported text between the two. So no line comes or goes, and the
expression lines are found under the same numbers.

What is reported of a line is found by its number: `Lines.mem_expressionLines_iff` says which line a
number stands for, and where that line begins.
-/

namespace OperandOrder

namespace Lines

/-! ### Numbers of lines -/

/-- **Expression lines, by their places:** the number counts all lines in front, and the offset all
their bytes. -/
theorem mem_expressionLinesFrom_iff {number offset : Nat} {raws : List (List Char)}
    {line : SourceLine} :
    line ∈ expressionLinesFrom number offset raws ↔ ∃ i raw, raws[i]? = some raw ∧
      isExpression (body raw) = true ∧
        line = ⟨number + i, offset + Text.width (raws.take i).flatten, body raw⟩ := by
  induction raws generalizing number offset with
  | nil =>
    refine iff_of_false List.not_mem_nil ?_
    rintro ⟨i, raw, hraw, -⟩
    exact nomatch hraw
  | cons first raws ih =>
    -- the first line has the number itself, and those behind it are counted from the next number
    have hlater : line ∈ expressionLinesFrom (number + 1) (offset + Text.width first) raws ↔
        ∃ i raw, (first :: raws)[i + 1]? = some raw ∧ isExpression (body raw) = true ∧
          line = ⟨number + (i + 1), offset + Text.width ((first :: raws).take (i + 1)).flatten,
            body raw⟩ := by
      rw [ih]
      simp only [List.getElem?_cons_succ, List.take_succ_cons, List.flatten_cons, Text.width_append,
        Nat.add_assoc, Nat.add_comm 1]
    have hfirst : line ∈ expressionLinesFrom number offset (first :: raws) ↔
        (isExpression (body first) = true ∧ line = ⟨number, offset, body first⟩) ∨
          line ∈ expressionLinesFrom (number + 1) (offset + Text.width first) raws := by
      rw [expressionLinesFrom]
      split
      next h => simp [h]
      next h => simp [h]
    rw [hfirst, hlater]
    constructor
    · rintro (⟨hexpression, rfl⟩ | ⟨i, raw, hraw, hline⟩)
      · exact ⟨0, first, rfl, hexpression, rfl⟩
      · exact ⟨i + 1, raw, hraw, hline⟩
    · rintro ⟨i, raw, hraw, hexpression, hline⟩
      cases i with
      | zero =>
        obtain rfl := Option.some.inj hraw
        exact .inl ⟨hexpression, hline⟩
      | succ i => exact .inr ⟨i, raw, hraw, hexpression, hline⟩

/-- **The expression lines by their numbers.** The number of a line counts the lines up to it, and
its offset is the width of the lines in front of it. -/
theorem mem_expressionLines_iff {source : String} {line : SourceLine} :
    line ∈ expressionLines source ↔ ∃ i raw, (rawLines source.toList)[i]? = some raw ∧
      isExpression (body raw) = true ∧
        line = ⟨i + 1, Text.width ((rawLines source.toList).take i).flatten, body raw⟩ := by
  rw [expressionLines, mem_expressionLinesFrom_iff]
  simp only [Nat.zero_add, Nat.add_comm 1]

/-- Lines that hold expressions in the same places have the same numbers. -/
theorem map_number_expressionLinesFrom {g : List Char → List Char} {raws : List (List Char)}
    (h : ∀ raw ∈ raws, isExpression (body (g raw)) = isExpression (body raw))
    (number offset offset' : Nat) :
    (expressionLinesFrom number offset (raws.map g)).map (·.number) =
      (expressionLinesFrom number offset' raws).map (·.number) := by
  induction raws generalizing number offset offset' with
  | nil => rfl
  | cons raw raws ih =>
    obtain ⟨hraw, hraws⟩ := List.forall_mem_cons.mp h
    rw [List.map_cons, expressionLinesFrom, expressionLinesFrom, hraw]
    split
    next => rw [List.map_cons, List.map_cons, ih hraws]
    next => exact ih hraws _ _ _

/-! ### Line feeds -/

/-- There is one line more than there are line feeds. -/
theorem length_splitOn_lineFeed (cs : List Char) :
    (cs.splitOn '\n').length = cs.count '\n' + 1 := by
  induction cs with
  | nil => rfl
  | cons c cs ih =>
    rw [List.splitOn] at ih ⊢
    rw [List.splitOnP_cons_eq_if_modifyHead, List.count_cons]
    split
    next => rw [List.length_cons, ih]
    next => rw [List.length_modifyHead, ih, Nat.add_zero]

variable {f : List Char → Option String}

theorem ending_amend (hf : KeepsLines f) {raw : List Char} (h : WithinLine (body raw)) :
    ending (amend f raw) = ending raw := by
  have hparts := body_append_ending (amend f raw)
  rw [body_amend hf h, amend] at hparts
  exact List.append_cancel_left hparts

/-- A line with a new text has as many line feeds as before, all of them in its terminator. -/
theorem count_amend (hf : KeepsLines f) {raw : List Char} (h : WithinLine (body raw)) :
    (amend f raw).count '\n' = raw.count '\n' := by
  have hnew := (withinLine_amendText hf h).1.lineFeed
  calc (amend f raw).count '\n' = (ending raw).count '\n' := by
        rw [amend, List.count_append, List.count_eq_zero.mpr hnew, Nat.zero_add]
    _ = (body raw ++ ending raw).count '\n' := by
        rw [List.count_append, List.count_eq_zero.mpr h.lineFeed, Nat.zero_add]
    _ = raw.count '\n' := by rw [body_append_ending]

/-- **No line comes or goes.** -/
theorem length_splitOn_amended (hf : KeepsLines f) (source : String) :
    ((amended f source).toList.splitOn '\n').length = (source.toList.splitOn '\n').length := by
  have hwithin := withinLine_of_mem (areLines_rawLines source.toList)
  have hcounts : ((rawLines source.toList).map (amend f)).map (List.count '\n') =
      (rawLines source.toList).map (List.count '\n') := by
    rw [List.map_map]
    exact List.map_congr_left fun raw hraw => count_amend hf (hwithin raw hraw)
  rw [length_splitOn_lineFeed, length_splitOn_lineFeed, amended, String.toList_ofList,
    List.count_flatten, hcounts, ← List.count_flatten, rawLines_flatten]

/-- **The expression lines keep their numbers.** -/
theorem map_number_amended (hf : KeepsLines f) (source : String) :
    (expressionLines (amended f source)).map (·.number) =
      (expressionLines source).map (·.number) := by
  have hwithin := withinLine_of_mem (areLines_rawLines source.toList)
  rw [expressionLines, rawLines_amended hf]
  refine map_number_expressionLinesFrom (fun raw hraw => ?_) _ _ _
  rw [body_amend hf (hwithin raw hraw)]
  exact (withinLine_amendText hf (hwithin raw hraw)).2

end Lines

open Lines

/-! ### Reports -/

variable (policy : Policy) (range : Option Span)

/-- **What is reported of a line,** found by its number. -/
theorem mem_reorderSource_iff {source : String} {report : ReorderedLine} :
    report ∈ reorderSource policy range source ↔ ∃ i raw, (rawLines source.toList)[i]? = some raw ∧
      isExpression (body raw) = true ∧
        report = SourceLine.reorder policy (range.getD .everywhere)
          ⟨i + 1, Text.width ((rawLines source.toList).take i).flatten, body raw⟩ := by
  rw [reorderSource, List.mem_map]
  constructor
  · rintro ⟨line, hline, rfl⟩
    obtain ⟨i, raw, hraw, hexpression, rfl⟩ := mem_expressionLines_iff.mp hline
    exact ⟨i, raw, hraw, hexpression, rfl⟩
  · rintro ⟨i, raw, hraw, hexpression, rfl⟩
    exact ⟨_, mem_expressionLines_iff.mpr ⟨i, raw, hraw, hexpression, rfl⟩, rfl⟩

/-- A new text is indented as the old one was. -/
theorem indent_reprinted {range : Span} {text : List Char} {new : String}
    (h : reprinted? policy range text = some new) : Text.indent new.toList = Text.indent text := by
  obtain ⟨herrors, -, rfl⟩ := (reprinted?_eq_some_iff policy range).mp h
  rw [String.toList_ofList]
  exact (indent_append (oneLine_reordered policy range herrors)).1

/-! ### Line by line -/

/-- **A line before and after a run,** and what is reported of the lines of the file. -/
structure LineKept (reports : List ReorderedLine) (number : Nat) (before after : List Char) :
    Prop where
  /-- A line that is blank or a comment is the same. -/
  skipped : Text.trimStart (body before) = [] ∨ isComment (Text.trimStart (body before)) = true →
    after = before
  /-- Any other line is reported. -/
  reported : Text.trimStart (body before) ≠ [] → isComment (Text.trimStart (body before)) = false →
    ∃ report ∈ reports, report.number = number
  /-- A line that is reported with errors, or as unchanged, is the same. -/
  unchanged : ∀ report ∈ reports, report.number = number →
    report.errors ≠ [] ∨ report.changed = false → after = before
  /-- A line that is reported changed has the reported text, the same indentation and the same
  terminator. -/
  changed : ∀ report ∈ reports, report.number = number → report.changed = true →
    body after = report.text.toList ∧ Text.indent (body after) = Text.indent (body before) ∧
      ending after = ending before

theorem isExpression_eq_false_iff {text : List Char} :
    isExpression text = false ↔
      Text.trimStart text = [] ∨ isComment (Text.trimStart text) = true := by
  simp [isExpression, or_iff_not_imp_left]

/-- **A report under the number of a line** is a report of that line. -/
theorem report_of_number {source : String} {i : Nat} {raw : List Char}
    (hraw : (rawLines source.toList)[i]? = some raw) {report : ReorderedLine}
    (hmem : report ∈ reorderSource policy range source) (hnumber : report.number = i + 1) :
    isExpression (body raw) = true ∧ report.errors = (readLine (body raw)).errors ∧
      report.changed = (reprinted? policy (range.getD .everywhere) (body raw)).isSome ∧
      report.text = (reprinted? policy (range.getD .everywhere) (body raw)).getD
        (String.ofList (body raw)) := by
  obtain ⟨j, raw', hraw', hexpression, rfl⟩ := (mem_reorderSource_iff policy range).mp hmem
  rw [SourceLine.reorder_eq] at hnumber ⊢
  obtain rfl : j = i := Nat.succ.inj hnumber
  obtain rfl : raw' = raw := Option.some.inj (hraw'.symm.trans hraw)
  exact ⟨hexpression, rfl, rfl, rfl⟩

/-- **What a run does to one line.** -/
theorem lineKept_amend {source : String} {i : Nat} {raw : List Char}
    (hraw : (rawLines source.toList)[i]? = some raw) :
    LineKept (reorderSource policy range source) (i + 1) raw
      (amend (reprinted? policy (range.getD .everywhere)) raw) := by
  have hkeeps := keepsLines_reprinted policy (range.getD .everywhere)
  have hwithin : WithinLine (body raw) :=
    withinLine_of_mem (areLines_rawLines source.toList) raw (List.mem_of_getElem? hraw)
  have hsame : amendText (reprinted? policy (range.getD .everywhere)) (body raw) = body raw →
      amend (reprinted? policy (range.getD .everywhere)) raw = raw := by
    intro htext
    rw [amend, htext, body_append_ending]
  refine ⟨?_, ?_, ?_, ?_⟩
  · intro hskipped
    refine hsame ?_
    rw [amendText, isExpression_eq_false_iff.mpr hskipped]
    rfl
  · intro hblank hcomment
    have hexpression : isExpression (body raw) = true := by
      rw [← Bool.not_eq_false, isExpression_eq_false_iff, hcomment]
      simpa using hblank
    refine ⟨_, (mem_reorderSource_iff policy range).mpr ⟨i, raw, hraw, hexpression, rfl⟩, ?_⟩
    rw [SourceLine.reorder_eq]
  · intro report hmem hnumber hunchanged
    obtain ⟨hexpression, herrors, hchanged, -⟩ := report_of_number policy range hraw hmem hnumber
    refine hsame ?_
    rw [amendText, if_pos hexpression]
    -- there is no new text, because of the errors or because nothing moved
    cases hnew : reprinted? policy (range.getD .everywhere) (body raw) with
    | none => rfl
    | some new =>
      rw [hnew] at hchanged
      obtain ⟨hnone, -⟩ := (reprinted?_eq_some_iff policy _).mp hnew
      rcases hunchanged with hfaulty | hstill
      · exact absurd (herrors.trans hnone) hfaulty
      · exact absurd (hstill.symm.trans hchanged) Bool.false_ne_true
  · intro report hmem hnumber hmoved
    obtain ⟨hexpression, -, hchanged, htext⟩ := report_of_number policy range hraw hmem hnumber
    obtain ⟨new, hnew⟩ := Option.isSome_iff_exists.mp (hchanged.symm.trans hmoved)
    have hbody : body (amend (reprinted? policy (range.getD .everywhere)) raw) =
        report.text.toList := by
      rw [body_amend hkeeps hwithin, amendText, if_pos hexpression, htext, hnew]
      rfl
    refine ⟨hbody, ?_, ending_amend hkeeps hwithin⟩
    rw [hbody, htext, hnew]
    exact indent_reprinted policy hnew

/-- **A run changes nothing else.** Split at line feeds, what is printed has as many lines as the
source; line by line it is the source, but for the texts of the lines that are reported changed; and
the expression lines have the same numbers. -/
theorem reordering_frame (options : Options) (path source : String) :
    let out := (FileCommand.reorder.answer options path source).stdout
    let reports := reorderSource options.policy options.range source
    (out.toList.splitOn '\n').length = (source.toList.splitOn '\n').length ∧
    (rawLines out.toList).length = (rawLines source.toList).length ∧
    (∀ i before after, (rawLines source.toList)[i]? = some before →
      (rawLines out.toList)[i]? = some after → LineKept reports (i + 1) before after) ∧
    (expressionLines out).map (·.number) = (expressionLines source).map (·.number) := by
  intro out reports
  -- a line that is reprinted stays one line, so all lines keep their places
  have hkeeps := keepsLines_reprinted options.policy (options.range.getD .everywhere)
  have hout : out = amended (reprinted? options.policy (options.range.getD .everywhere)) source :=
    reorderedText_eq options.policy options.range source
  have hlines := rawLines_amended hkeeps source
  rw [hout]
  refine ⟨length_splitOn_amended hkeeps source, ?_, ?_, map_number_amended hkeeps source⟩
  · rw [hlines, List.length_map]
  · intro i before after hbefore hafter
    rw [hlines, List.getElem?_map, hbefore] at hafter
    obtain rfl := Option.some.inj hafter
    exact lineKept_amend options.policy options.range hbefore

/-- A line that is changed between a comment and one that cannot be read, and none of them
ends alike. -/
def mixed : String := "// sums\n\tccc + a \r\r\na +\r\n\n  bb * a"

/-- The line that is changed keeps its indentation and its terminator. -/
theorem reordering_frame_mixed :
    reorderedText .standard none mixed = "// sums\n\ta + ccc\r\r\na +\r\n\n  a * bb" ∧
    (rawLines mixed.toList)[1]? = some "\tccc + a \r\r\n".toList ∧
    (rawLines (reorderedText .standard none mixed).toList)[1]? = some "\ta + ccc\r\r\n".toList ∧
    LineKept (reorderSource .standard none mixed) 2 "\tccc + a \r\r\n".toList
      "\ta + ccc\r\r\n".toList := by
  have hnew : reorderedText .standard none mixed = "// sums\n\ta + ccc\r\r\na +\r\n\n  a * bb" := by
    decide +kernel
  have hbefore : (rawLines mixed.toList)[1]? = some "\tccc + a \r\r\n".toList := by decide +kernel
  have hafter : (rawLines (reorderedText .standard none mixed).toList)[1]? =
      some "\ta + ccc\r\r\n".toList := by
    rw [hnew]
    decide +kernel
  obtain ⟨-, -, hkept, -⟩ := reordering_frame ⟨none, .standard, none, false⟩ "mixed" mixed
  exact ⟨hnew, hbefore, hafter, hkept 1 _ _ hbefore hafter⟩

end OperandOrder
