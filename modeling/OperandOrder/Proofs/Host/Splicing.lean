import OperandOrder.Proofs.Host.Frame
import OperandOrder.Proofs.Token.Covering

/-!
# Splitting and splicing

Two functions go through the lines of a file, one to list the expression lines and one to put new
texts in, and neither knows of the other. `split_and_splice` says that they mean the same lines. A
file is made of lines in one way only (`lineUp_iff`), where a line is a text and its terminator, a
run of carriage returns and a line feed (`LineUp`). The expression lines are the lines of the file
that are neither blank nor comments, each with its number and its offset, and splicing changes the
texts of the lines that are named, and nothing else.

For the numbers it matters that a line feed is at the end of each line but perhaps the last one, so
that the line feeds before a line count the lines before it (`LineUp.count_joined`). For splicing it
matters that the replacements are taken in order. One that is due no more would hold up all others,
so the run lemma has it that none of those left is for an earlier line (`replaceFrom_ascending`).
-/

namespace OperandOrder

namespace Lines

/-! ### Lines taken apart -/

/-- **A line taken apart:** its text and its terminator. -/
structure RawLine where
  text : List Char
  ending : List Char
  deriving DecidableEq, Repr

namespace RawLine

/-- Takes a line apart. -/
def ofChars (raw : List Char) : RawLine := ⟨body raw, Lines.ending raw⟩

/-- Puts a line together. -/
def chars (line : RawLine) : List Char := line.text ++ line.ending

theorem chars_ofChars (raw : List Char) : (ofChars raw).chars = raw := body_append_ending raw

/-- A line comes apart where it was put together. -/
theorem ofChars_chars {line : RawLine} (htext : WithinLine line.text)
    (hending : ∀ c ∈ line.ending, isEnding c = true) : ofChars line.chars = line := by
  have hbody : body line.chars = line.text := body_append htext hending
  -- with the text found, what is left of the line is its terminator
  have hparts : line.text ++ Lines.ending line.chars = line.text ++ line.ending := by
    rw [← hbody, body_append_ending, hbody]
    rfl
  rw [ofChars, hbody, List.append_cancel_left hparts]

end RawLine

/-- The text that lines make, one after the other. -/
def joined (lines : List RawLine) : List Char := (lines.map RawLine.chars).flatten

theorem joined_map_ofChars (raws : List (List Char)) :
    joined (raws.map RawLine.ofChars) = raws.flatten := by
  rw [joined, List.map_map]
  congr 1
  exact (List.map_congr_left fun raw _ => RawLine.chars_ofChars raw).trans (List.map_id raws)

/-- **Lines as they stand in a file.** A line ends in a run of carriage returns and a line
feed, which only the last line can do without, and its text holds no line feed and ends in no
carriage return. -/
inductive LineUp : List RawLine → Prop
  | nil : LineUp []
  | last {text : List Char} {n : Nat} (h : WithinLine text)
    (hne : text ++ List.replicate n '\r' ≠ []) : LineUp [⟨text, List.replicate n '\r'⟩]
  | cons {text : List Char} {n : Nat} {rest : List RawLine} (h : WithinLine text)
    (hrest : LineUp rest) : LineUp (⟨text, List.replicate n '\r' ++ ['\n']⟩ :: rest)

theorem isEnding_of_mem_replicate {n : Nat} {c : Char} (h : c ∈ List.replicate n '\r') :
    isEnding c = true := by
  rw [List.eq_of_mem_replicate h]
  rfl

/-- Without a line feed, a terminator is made of carriage returns. -/
theorem ending_eq_replicate {cs : List Char} (h : '\n' ∉ cs) :
    ∃ n, ending cs = List.replicate n '\r' := by
  refine ⟨(ending cs).length, List.eq_replicate_iff.mpr ⟨rfl, fun c hc => ?_⟩⟩
  have hne : c ≠ '\n' := by
    rintro rfl
    exact h (body_append_ending cs ▸ List.mem_append_right _ hc)
  have hending := isEnding_of_mem_ending hc
  simpa [isEnding, hne] using hending

/-- Lines that are taken apart line up. -/
theorem lineUp_ofChars {raws : List (List Char)} (h : AreLines raws) :
    LineUp (raws.map RawLine.ofChars) := by
  induction h with
  | nil => exact .nil
  | @last cs hne h =>
    obtain ⟨n, hn⟩ := ending_eq_replicate h
    rw [List.map_singleton, RawLine.ofChars, hn]
    refine .last (withinLine_body h) ?_
    rwa [← hn, body_append_ending]
  | @cons cs rest h _ ih =>
    obtain ⟨n, hn⟩ := ending_eq_replicate h
    rw [List.map_cons, RawLine.ofChars, body_append_lineFeed, ending_append_lineFeed, hn]
    exact .cons (withinLine_body h) ih

/-- Lines that line up are lines when they are put together. -/
theorem areLines_chars {lines : List RawLine} (h : LineUp lines) :
    AreLines (lines.map RawLine.chars) := by
  have hfeed : ∀ {text : List Char} (n : Nat), WithinLine text →
      '\n' ∉ text ++ List.replicate n '\r' := by
    intro text n htext hmem
    rcases List.mem_append.mp hmem with hmem | hmem
    · exact htext.lineFeed hmem
    · exact absurd (List.eq_of_mem_replicate hmem) (by decide)
  induction h with
  | nil => exact .nil
  | last h hne => exact .last hne (hfeed _ h)
  | cons h _ ih =>
    rw [List.map_cons, RawLine.chars, ← List.append_assoc]
    exact .cons (hfeed _ h) ih

/-- What was put together is taken apart as it was. -/
theorem map_ofChars_chars {lines : List RawLine} (h : LineUp lines) :
    (lines.map RawLine.chars).map RawLine.ofChars = lines := by
  induction h with
  | nil => rfl
  | last h =>
    rw [List.map_singleton, List.map_singleton, RawLine.ofChars_chars h]
    exact fun c hc => isEnding_of_mem_replicate hc
  | cons h _ ih =>
    rw [List.map_cons, List.map_cons, ih, RawLine.ofChars_chars h]
    intro c hc
    rcases List.mem_append.mp hc with hc | hc
    · exact isEnding_of_mem_replicate hc
    · rw [List.mem_singleton.mp hc]
      rfl

/-- **A text is made of lines in one way only.** -/
theorem lineUp_iff {cs : List Char} {lines : List RawLine} :
    LineUp lines ∧ joined lines = cs ↔ lines = (rawLines cs).map RawLine.ofChars := by
  constructor
  · rintro ⟨h, rfl⟩
    rw [joined, rawLines_flatten_of_areLines (areLines_chars h), map_ofChars_chars h]
  · rintro rfl
    refine ⟨lineUp_ofChars (areLines_rawLines cs), ?_⟩
    rw [joined_map_ofChars, rawLines_flatten]

/-! ### Lines that are left out -/

/-- A text of white space only. -/
def Blank (text : List Char) : Prop := ∀ c ∈ text, Text.isBlank c = true

/-- A text whose first characters that are not white space are `//`. -/
def Commented (text : List Char) : Prop :=
  ∃ front rest, Blank front ∧ text = front ++ '/' :: '/' :: rest

/-- A comment begins with two strokes. -/
theorem isComment_iff {cs : List Char} : isComment cs = true ↔ ∃ rest, cs = '/' :: '/' :: rest := by
  constructor
  · intro h
    unfold isComment at h
    split at h
    next rest => exact ⟨rest, rfl⟩
    next => exact absurd h Bool.false_ne_true
  · rintro ⟨rest, rfl⟩
    rfl

theorem trimStart_eq_nil_iff {text : List Char} : Text.trimStart text = [] ↔ Blank text :=
  List.dropWhile_eq_nil_iff

/-- Whether a line is a comment is seen behind its white space. -/
theorem isComment_trimStart_iff {text : List Char} :
    isComment (Text.trimStart text) = true ↔ Commented text := by
  rw [isComment_iff]
  constructor
  · rintro ⟨rest, hrest⟩
    refine ⟨Text.indent text, rest, fun c hc => List.mem_takeWhile_imp hc, ?_⟩
    rw [← hrest, Text.indent_append_trimStart]
  · rintro ⟨front, rest, hfront, rfl⟩
    refine ⟨rest, ?_⟩
    -- white space is dropped, and a slash is none
    rw [Text.trimStart, List.dropWhile_append_of_pos hfront, List.dropWhile_cons_of_neg (by decide)]

/-- **The lines that are left out** are blank or comments. -/
theorem isExpression_iff {text : List Char} :
    isExpression text = true ↔ ¬Blank text ∧ ¬Commented text := by
  rw [← Bool.not_eq_false, isExpression_eq_false_iff, trimStart_eq_nil_iff,
    isComment_trimStart_iff, not_or]

/-! ### Numbers and offsets -/

theorem LineUp.tail {first : RawLine} {rest : List RawLine} (h : LineUp (first :: rest)) :
    LineUp rest := by
  cases h with
  | last => exact .nil
  | cons _ hrest => exact hrest

/-- A line with another one behind it has one line feed. -/
theorem LineUp.count_head {first next : RawLine} {rest : List RawLine}
    (h : LineUp (first :: next :: rest)) : first.chars.count '\n' = 1 := by
  cases h with
  | @cons text n _ h _ =>
    have htext : text.count '\n' = 0 := List.count_eq_zero.mpr h.lineFeed
    have hreturns : (List.replicate n '\r').count '\n' = 0 :=
      List.count_eq_zero.mpr fun hmem => absurd (List.eq_of_mem_replicate hmem) (by decide)
    rw [RawLine.chars, List.count_append, List.count_append, htext, hreturns]
    rfl

/-- **The line feeds before a line** count the lines before it. -/
theorem LineUp.count_joined {before after : List RawLine} {line : RawLine}
    (h : LineUp (before ++ line :: after)) : (joined before).count '\n' = before.length := by
  induction before with
  | nil => rfl
  | cons first before ih =>
    -- there is a line behind the first one, be it of those before the line or the line itself
    have hfirst : first.chars.count '\n' = 1 := by
      cases before with
      | nil => exact h.count_head
      | cons next before => exact h.count_head
    change (first.chars ++ joined before).count '\n' = _
    rw [List.count_append, hfirst, ih h.tail, List.length_cons, Nat.add_comm]

/-- What stands at a place, and what is before and behind it. -/
theorem getElem?_eq_some_iff_append {α : Type} {l : List α} {i : Nat} {a : α} :
    l[i]? = some a ↔ ∃ before after, l = before ++ a :: after ∧ before.length = i := by
  constructor
  · intro h
    obtain ⟨hlt, rfl⟩ := List.getElem?_eq_some_iff.mp h
    refine ⟨l.take i, l.drop (i + 1), ?_, List.length_take_of_le (Nat.le_of_lt hlt)⟩
    rw [List.getElem_cons_drop, List.take_append_drop]
  · rintro ⟨before, after, rfl, rfl⟩
    rw [List.getElem?_append_right (Nat.le_refl _), Nat.sub_self, List.getElem?_cons_zero]

/-- **An expression line among the lines of the file.** -/
theorem mem_expressionLines_iff_append {source : String} {line : SourceLine} :
    line ∈ expressionLines source ↔ ∃ before ending after,
      (rawLines source.toList).map RawLine.ofChars = before ++ ⟨line.text, ending⟩ :: after ∧
        line.number = before.length + 1 ∧ line.offset = Text.width (joined before) ∧
          isExpression line.text = true := by
  rw [mem_expressionLines_iff]
  constructor
  · rintro ⟨i, raw, hraw, hexpression, rfl⟩
    obtain ⟨before, after, hsplit, rfl⟩ := getElem?_eq_some_iff_append.mp hraw
    refine ⟨before.map RawLine.ofChars, ending raw, after.map RawLine.ofChars, ?_, ?_, ?_,
      hexpression⟩
    · rw [hsplit, List.map_append, List.map_cons]
      rfl
    · rw [List.length_map]
    · rw [hsplit, List.take_left, joined_map_ofChars]
  · rintro ⟨before, ending, after, hsplit, hnumber, hoffset, hexpression⟩
    -- the lines taken apart are split where the raw lines are
    obtain ⟨front, back, hraws, rfl, hback⟩ := List.map_eq_append_iff.mp hsplit
    obtain ⟨raw, back, rfl, hraw, rfl⟩ := List.map_eq_cons_iff.mp hback
    have htext : body raw = line.text := congrArg RawLine.text hraw
    refine ⟨front.length, raw, getElem?_eq_some_iff_append.mpr ⟨front, back, hraws, rfl⟩, ?_, ?_⟩
    · rwa [htext]
    · rw [List.length_map] at hnumber
      rw [joined_map_ofChars] at hoffset
      rw [hraws, List.take_left, htext, ← hnumber, ← hoffset]

/-- The first number and the first offset are the least. -/
theorem le_of_mem_expressionLinesFrom {number offset : Nat} {raws : List (List Char)}
    {line : SourceLine} (h : line ∈ expressionLinesFrom number offset raws) :
    number ≤ line.number ∧ offset ≤ line.offset := by
  obtain ⟨i, raw, -, -, rfl⟩ := mem_expressionLinesFrom_iff.mp h
  exact ⟨Nat.le_add_right number i, Nat.le_add_right offset _⟩

/-- **Numbers and offsets are strictly increasing,** since a line with an expression takes
up room. -/
theorem pairwise_expressionLinesFrom (number offset : Nat) (raws : List (List Char)) :
    (expressionLinesFrom number offset raws).Pairwise fun a b =>
      a.number < b.number ∧ a.offset < b.offset := by
  induction raws generalizing number offset with
  | nil => exact .nil
  | cons raw raws ih =>
    rw [expressionLinesFrom]
    split
    next hexpression =>
      refine List.pairwise_cons.mpr ⟨fun line hline => ?_, ih _ _⟩
      obtain ⟨hnumber, hoffset⟩ := le_of_mem_expressionLinesFrom hline
      have hroom : 0 < Text.width raw := by
        refine Text.width_pos ?_
        rintro rfl
        exact absurd hexpression (by decide)
      exact ⟨hnumber, Nat.lt_of_lt_of_le (Nat.lt_add_of_pos_right hroom) hoffset⟩
    next => exact ih _ _

/-! ### Splicing -/

/-- The text of a line once replacements are in. -/
def newText (replacements : List (Nat × String)) (number : Nat) (text : List Char) : List Char :=
  ((replacements.lookup number).map String.toList).getD text

/-- **Lines with new texts** in the place of those that are named by their numbers. -/
def spliced (replacements : List (Nat × String)) (lines : List RawLine) : List RawLine :=
  lines.mapIdx fun i line => { line with text := newText replacements (i + 1) line.text }

/-- Before the first replacement nothing is replaced. -/
theorem newText_of_lt {replacements : List (Nat × String)} {number : Nat}
    (h : ∀ p ∈ replacements, number < p.1) (text : List Char) :
    newText replacements number text = text := by
  have hnone : replacements.lookup number = none := by
    rw [List.lookup_eq_none_iff]
    intro p hp
    simpa using Nat.ne_of_lt (h p hp)
  rw [newText, hnone]
  rfl

theorem newText_cons_of_ne {target number : Nat} (h : number ≠ target) (new : String)
    (later : List (Nat × String)) (text : List Char) :
    newText ((target, new) :: later) number text = newText later number text := by
  have hother : (number == target) = false := beq_false_of_ne h
  rw [newText, List.lookup_cons, hother, newText]

/-- **A run of replacements, none of which is for an earlier line.** -/
theorem replaceFrom_ascending {number : Nat} {replacements : List (Nat × String)}
    (hascending : replacements.Pairwise fun p q => p.1 < q.1)
    (hdue : ∀ p ∈ replacements, number ≤ p.1) (raws : List (List Char)) :
    replaceFrom number replacements raws =
      raws.mapIdx fun i raw => newText replacements (number + i) (body raw) ++ ending raw := by
  -- line by line; the replacements that are left get fewer only where one is due
  induction raws generalizing number replacements with
  | nil => rw [replaceFrom, List.mapIdx_nil]
  | cons raw raws ih =>
    rw [List.mapIdx_cons]
    by_cases hlater : ∀ p ∈ replacements, number < p.1
    · rw [replaceFrom_of_lt hlater, ih hascending hlater, Nat.add_zero, newText_of_lt hlater,
        body_append_ending]
      simp only [Nat.succ_add_eq_add_succ]
    · -- the first replacement is for this line, and the others are for later ones
      cases replacements with
      | nil => exact absurd (fun p hp => absurd hp List.not_mem_nil) hlater
      | cons p later =>
        obtain ⟨target, text⟩ := p
        obtain ⟨hfirst, hrest⟩ := List.pairwise_cons.mp hascending
        have hnumber : target = number := by
          by_contra hne
          have hlt : number < target :=
            Nat.lt_of_le_of_ne (hdue (target, text) List.mem_cons_self) (Ne.symm hne)
          refine hlater (List.forall_mem_cons.mpr ⟨hlt, fun p hp => ?_⟩)
          exact Nat.lt_trans hlt (hfirst p hp)
        subst hnumber
        rw [replaceFrom, if_pos rfl, ih hrest hfirst]
        congr 1
        · rw [Nat.add_zero, newText, List.lookup_cons_self]
          rfl
        · rw [List.mapIdx_eq_mapIdx_iff]
          intro i _
          rw [newText_cons_of_ne (by omega), Nat.succ_add_eq_add_succ]

/-- **Splicing by lines.** -/
theorem toList_replaceLines {source : String} {replacements : List (Nat × String)}
    (hascending : replacements.Pairwise fun p q => p.1 < q.1)
    (hnumbers : ∀ p ∈ replacements, 0 < p.1) : (replaceLines source replacements).toList =
      joined (spliced replacements ((rawLines source.toList).map RawLine.ofChars)) := by
  rw [replaceLines, String.toList_ofList, replaceFrom_ascending hascending hnumbers, joined,
    spliced]
  congr 1
  refine List.ext_getElem? fun i => ?_
  simp only [List.getElem?_map, List.getElem?_mapIdx, Option.map_map, Nat.add_comm 1]
  rfl

/-- Texts that are put in the place of themselves. -/
theorem spliced_eq_self {replacements : List (Nat × String)} {lines : List RawLine}
    (h : ∀ p ∈ replacements, ∃ before ending after,
      lines = before ++ ⟨p.2.toList, ending⟩ :: after ∧ p.1 = before.length + 1) :
    spliced replacements lines = lines := by
  rw [spliced, List.mapIdx_eq_iff]
  intro i
  cases hline : lines[i]? with
  | none => rfl
  | some line =>
    rw [Option.map_some, newText]
    cases htext : replacements.lookup (i + 1) with
    | none => rfl
    | some text =>
      obtain ⟨front, back, hmem, -⟩ := List.lookup_eq_some_iff.mp htext
      obtain ⟨before, ending, after, hsplit, hnumber⟩ := h (i + 1, text) (by simp [hmem])
      -- the line with this number is the one that has the text
      have hsame : lines[i]? = some ⟨text.toList, ending⟩ :=
        getElem?_eq_some_iff_append.mpr ⟨before, after, hsplit, (Nat.succ.inj hnumber).symm⟩
      obtain rfl := Option.some.inj (hline.symm.trans hsame)
      rfl

/-- **Splitting and splicing fit together.** A source is made of lines in one way only. The
expression lines are those that are neither blank nor comments; each is numbered by the lines before
it and begins where they end, so it is found in the source at its offset, with a line feed before it
for each number; and both grow from line to line. Replacements in strictly ascending order change
the texts of the lines that they name, and nothing else; and texts that are put in the place of
themselves give the source back. -/
theorem split_and_splice (source : String) :
    ∃ lines : List RawLine,
      (∀ others, LineUp others ∧ joined others = source.toList ↔ others = lines) ∧
      (∀ line, line ∈ expressionLines source ↔ ∃ before ending after,
        lines = before ++ ⟨line.text, ending⟩ :: after ∧ line.number = before.length + 1 ∧
          line.offset = Text.width (joined before) ∧ ¬Blank line.text ∧ ¬Commented line.text) ∧
      (∀ line ∈ expressionLines source, ∃ before after,
        source.toList = before ++ line.text ++ after ∧
        line.offset = Text.width before ∧ line.number = before.count '\n' + 1) ∧
      (expressionLines source).Pairwise (fun a b => a.number < b.number ∧ a.offset < b.offset) ∧
      (∀ replacements : List (Nat × String), replacements.Pairwise (fun p q => p.1 < q.1) →
        (∀ p ∈ replacements, 0 < p.1) →
        (replaceLines source replacements).toList = joined (spliced replacements lines) ∧
        ((∀ p ∈ replacements, ∃ before ending after,
          lines = before ++ ⟨p.2.toList, ending⟩ :: after ∧
          p.1 = before.length + 1) → replaceLines source replacements = source)) := by
  -- there is one way to take the source apart, and both functions go by it
  have hlines := @lineUp_iff source.toList
  obtain ⟨hlineUp, hjoined⟩ := hlines.mpr rfl
  refine ⟨(rawLines source.toList).map RawLine.ofChars, fun _ => hlines, ?_, ?_,
    pairwise_expressionLinesFrom _ _ _, ?_⟩
  · intro line
    simp only [mem_expressionLines_iff_append, isExpression_iff]
  · intro line hline
    obtain ⟨before, ending, after, hsplit, hnumber, hoffset, -⟩ :=
      mem_expressionLines_iff_append.mp hline
    rw [hsplit] at hlineUp hjoined
    refine ⟨joined before, ending ++ joined after, ?_, hoffset, ?_⟩
    · rw [← hjoined]
      simp [joined, RawLine.chars]
    · rw [hnumber, hlineUp.count_joined]
  · intro replacements hascending hnumbers
    have hspliced := @toList_replaceLines source replacements hascending hnumbers
    refine ⟨hspliced, fun hown => String.toList_inj.mp ?_⟩
    rw [hspliced, spliced_eq_self hown, hjoined]

/-- Lines with every kind of terminator, of which one holds a carriage return and one is blank. -/
def assorted : String := "a + b\r\n\n  // é\r\r\nβ + a\rb\n\u3000\nlast"

/-- Lines of all kinds of terminators, of which two get new texts. -/
theorem split_and_splice_assorted :
    let lines : List RawLine := [⟨"a + b".toList, "\r\n".toList⟩, ⟨[], "\n".toList⟩,
      ⟨"  // é".toList, "\r\r\n".toList⟩, ⟨"β + a\rb".toList, "\n".toList⟩,
      ⟨"\u3000".toList, "\n".toList⟩, ⟨"last".toList, []⟩]
    (LineUp lines ∧ joined lines = assorted.toList) ∧
    (∃ before after, assorted.toList = before ++ "β + a\rb".toList ++ after ∧
      Text.width before = 18 ∧ before.count '\n' + 1 = 4) ∧
    replaceLines assorted [(3, "// é + a"), (6, "b\n")] =
      "a + b\r\n\n// é + a\r\r\nβ + a\rb\n\u3000\nb\n" ∧
    replaceLines assorted [(2, ""), (4, "β + a\rb")] = assorted := by
  intro lines
  -- line endings of every kind, a comment, blanks that are not ASCII, and no ending at the end
  have hparts : LineUp lines ∧ joined lines = assorted.toList := lineUp_iff.mpr (by decide +kernel)
  have hline : ⟨4, 18, "β + a\rb".toList⟩ ∈ expressionLines assorted := by decide +kernel
  obtain ⟨all, honly, -, hfound, -, hsplice⟩ := split_and_splice assorted
  obtain rfl : lines = all := (honly lines).mp hparts
  obtain ⟨before, after, hsplit, hoffset, hnumber⟩ := hfound _ hline
  obtain ⟨hspliced, -⟩ := hsplice [(3, "// é + a"), (6, "b\n")] (by decide) (by decide)
  obtain ⟨-, hown⟩ := hsplice [(2, ""), (4, "β + a\rb")] (by decide) (by decide)
  refine ⟨hparts, ⟨before, after, hsplit, hoffset.symm, hnumber.symm⟩, ?_, hown ?_⟩
  · refine String.toList_inj.mp (hspliced.trans ?_)
    decide +kernel
  · refine List.forall_mem_cons.mpr ⟨?_, List.forall_mem_singleton.mpr ?_⟩
    · exact ⟨lines.take 1, "\n".toList, lines.drop 2, rfl, rfl⟩
    · exact ⟨lines.take 3, "\n".toList, lines.drop 4, rfl, rfl⟩

end Lines

end OperandOrder
