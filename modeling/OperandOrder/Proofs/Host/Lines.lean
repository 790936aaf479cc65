import OperandOrder.Proofs.PrintedLine

/-!
# Lines stay lines

Putting new texts in the place of some expression lines changes nothing else, provided that a new
text makes a line of its own (`Lines.KeepsLines`). Then the lines of the result are the lines of the
source, one by one, each as it was or with a new text before its terminator
(`Lines.rawLines_amended`); so the expression lines of the result are those of the source with their
new texts (`Lines.map_text_amended`), and the result is the source if and only if every text stays
as it was (`Lines.amended_eq_iff`).
-/

namespace OperandOrder

namespace Lines

/-! ### Raw lines -/

/-- **What the raw lines of a text are like:** there is a line feed at the end of each but perhaps
the last one, and nowhere else. -/
inductive AreLines : List (List Char) → Prop
  | nil : AreLines []
  | last {cs : List Char} (hne : cs ≠ []) (h : '\n' ∉ cs) : AreLines [cs]
  | cons {cs : List Char} {rest : List (List Char)} (h : '\n' ∉ cs) (hrest : AreLines rest) :
    AreLines ((cs ++ ['\n']) :: rest)

/-- **What a text is divided into are lines:** none is empty, and a line feed stands only at the end
of one. All but the last end with one. -/
theorem areLines_rawLines (cs : List Char) : AreLines (rawLines cs) := by
  induction cs with
  | nil => exact .nil
  | cons c cs ih =>
    unfold rawLines
    split
    next hc =>
      subst hc
      change AreLines (([] ++ ['\n']) :: rawLines cs)
      exact .cons List.not_mem_nil ih
    next hc =>
      have hne : '\n' ≠ c := Ne.symm hc
      split
      next => exact .last (List.cons_ne_nil c []) (by simpa using hne)
      next line lines hlines =>
        rw [hlines] at ih
        -- the character comes to stand before the first line of the rest
        generalize hall : line :: lines = all at ih
        cases ih with
        | nil => exact nomatch hall
        | last _ h =>
          obtain ⟨rfl, rfl⟩ := List.cons.inj hall
          exact .last (List.cons_ne_nil c line) (by simp [h, hne])
        | @cons ds rest h hrest =>
          obtain ⟨rfl, rfl⟩ := List.cons.inj hall
          change AreLines ((c :: ds ++ ['\n']) :: lines)
          exact .cons (by simp [h, hne]) hrest

/-- A line ends with the first line feed. -/
theorem rawLines_append_lineFeed {cs : List Char} (h : '\n' ∉ cs) (rest : List Char) :
    rawLines (cs ++ '\n' :: rest) = (cs ++ ['\n']) :: rawLines rest := by
  -- the line feed makes a line of itself, and every character before it joins that line
  induction cs with
  | nil => rw [List.nil_append, rawLines, if_pos rfl]; rfl
  | cons c cs ih =>
    simp only [List.mem_cons, not_or] at h
    rw [List.cons_append, rawLines, if_neg (Ne.symm h.1), ih h.2]
    rfl

/-- A text without line feeds is one line. -/
theorem rawLines_eq_singleton {cs : List Char} (hne : cs ≠ []) (h : '\n' ∉ cs) :
    rawLines cs = [cs] := by
  induction cs with
  | nil => exact absurd rfl hne
  | cons c cs ih =>
    simp only [List.mem_cons, not_or] at h
    rw [rawLines, if_neg (Ne.symm h.1)]
    cases cs with
    | nil => rfl
    | cons d ds => rw [ih (List.cons_ne_nil d ds) h.2]

/-- **Lines that are put together are found again.** -/
theorem rawLines_flatten_of_areLines {lines : List (List Char)} (h : AreLines lines) :
    rawLines lines.flatten = lines := by
  induction h with
  | nil => rfl
  | last hne h => rw [List.flatten_singleton, rawLines_eq_singleton hne h]
  | cons h _ ih =>
    rw [List.flatten_cons, List.append_assoc, List.singleton_append, rawLines_append_lineFeed h, ih]

/-! ### Texts and terminators -/

/-- A terminator is made of line feeds and carriage returns. -/
theorem isEnding_of_mem_ending {raw : List Char} {c : Char} (h : c ∈ ending raw) :
    isEnding c = true := by
  rw [ending, List.mem_reverse] at h
  exact List.mem_takeWhile_imp h

/-- A line feed at the end is not part of the text of a line. -/
theorem body_append_lineFeed (cs : List Char) : body (cs ++ ['\n']) = body cs := by
  rw [body, List.reverse_append, List.reverse_singleton, List.singleton_append,
    List.dropWhile_cons_of_pos rfl, body]

/-- A line feed at the end is part of the terminator. -/
theorem ending_append_lineFeed (cs : List Char) : ending (cs ++ ['\n']) = ending cs ++ ['\n'] := by
  rw [ending, List.reverse_append, List.reverse_singleton, List.singleton_append,
    List.takeWhile_cons_of_pos rfl, List.reverse_cons, ending]

/-- The text of a line, without a line feed and with its terminator taken off. -/
theorem withinLine_body {cs : List Char} (h : '\n' ∉ cs) : WithinLine (body cs) := by
  refine ⟨fun hmem => h ?_, fun c hc => ?_⟩
  · rw [← body_append_ending cs]
    exact List.mem_append_left _ hmem
  · rw [body, List.getLast?_reverse] at hc
    have hnot := List.head?_dropWhile_not isEnding cs.reverse
    rw [Option.mem_def.mp hc] at hnot
    simpa using hnot

/-- **A text comes back** from the line that it makes with a terminator. -/
theorem body_append {text tail : List Char} (h : WithinLine text)
    (htail : ∀ c ∈ tail, isEnding c = true) : body (text ++ tail) = text := by
  -- from behind, the terminator is passed over and the last character of the text stops the run
  have hdrop : text.reverse.dropWhile isEnding = text.reverse := by
    rw [List.dropWhile_eq_self_iff]
    intro hlength
    have hlast := h.last (text.reverse[0]) ?_
    · simpa using hlast
    · rw [Option.mem_def, ← List.head?_reverse, List.head?_eq_getElem?]
      exact List.getElem?_eq_getElem hlength
  rw [body, List.reverse_append, List.dropWhile_append_of_pos (by simpa using htail), hdrop,
    List.reverse_reverse]

/-! ### New texts for old -/

variable (f : List Char → Option String)

/-- The text of a line with a new one in its place, if it is that of an expression and there
is one. -/
def amendText (text : List Char) : List Char :=
  if isExpression text then ((f text).map String.toList).getD text else text

/-- A raw line with a new text before its terminator. -/
def amend (raw : List Char) : List Char := amendText f (body raw) ++ ending raw

/-- **A text with new ones in the place of some expression lines.** -/
def amended (source : String) : String :=
  String.ofList ((rawLines source.toList).map (amend f)).flatten

/-- The new texts, each with the number of its line. -/
def replacements (number offset : Nat) (raws : List (List Char)) : List (Nat × String) :=
  (expressionLinesFrom number offset raws).filterMap fun line => (f line.text).map (line.number, ·)

/-- Replacements are numbered from the first line on. -/
theorem lt_of_mem_replacements {number offset : Nat} {raws : List (List Char)} {p : Nat × String}
    (h : p ∈ replacements f number offset raws) : number ≤ p.1 := by
  induction raws generalizing number offset with
  | nil => exact absurd h List.not_mem_nil
  | cons raw raws ih =>
    have hlater : p ∈ replacements f (number + 1) (offset + Text.width raw) raws → number ≤ p.1 :=
      fun h => Nat.le_of_succ_le (ih h)
    rw [replacements, expressionLinesFrom] at h
    split at h
    · rw [List.filterMap_cons] at h
      split at h
      next => exact hlater h
      next q hq =>
        rcases List.mem_cons.mp h with rfl | h
        · obtain ⟨text, -, rfl⟩ := Option.map_eq_some_iff.mp hq
          exact Nat.le_refl number
        · exact hlater h
    · exact hlater h

/-- A line is passed over by replacements for later ones. -/
theorem replaceFrom_of_lt {number : Nat} {later : List (Nat × String)}
    (h : ∀ p ∈ later, number < p.1) (raw : List Char) (raws : List (List Char)) :
    replaceFrom number later (raw :: raws) = raw :: replaceFrom (number + 1) later raws := by
  cases later with
  | nil => cases raws <;> rfl
  | cons p later =>
    obtain ⟨target, text⟩ := p
    have hne : target ≠ number := Nat.ne_of_gt (h (target, text) List.mem_cons_self)
    rw [replaceFrom, if_neg hne]

/-- **Replacing goes line by line.** -/
theorem replaceFrom_replacements (number offset : Nat) (raws : List (List Char)) :
    replaceFrom number (replacements f number offset raws) raws = raws.map (amend f) := by
  induction raws generalizing number offset with
  | nil => rw [replaceFrom, List.map_nil]
  | cons raw raws ih =>
    have hlater : ∀ p ∈ replacements f (number + 1) (offset + Text.width raw) raws, number < p.1 :=
      fun p hp => lt_of_mem_replacements f hp
    -- a line that keeps its text, because it holds no expression or because there is no new one
    have hkept : amendText f (body raw) = body raw →
        replacements f number offset (raw :: raws) =
          replacements f (number + 1) (offset + Text.width raw) raws →
        replaceFrom number (replacements f number offset (raw :: raws)) (raw :: raws) =
          (raw :: raws).map (amend f) := by
      intro htext hsame
      rw [hsame, replaceFrom_of_lt hlater, ih, List.map_cons, amend, htext, body_append_ending]
    by_cases hexpression : isExpression (body raw) = true
    · cases hf : f (body raw) with
      | none =>
        refine hkept (by rw [amendText, if_pos hexpression, hf]; rfl) ?_
        rw [replacements, expressionLinesFrom, if_pos hexpression, List.filterMap_cons, hf]
        rfl
      | some text =>
        have hnew : replacements f number offset (raw :: raws) =
            (number, text) :: replacements f (number + 1) (offset + Text.width raw) raws := by
          rw [replacements, expressionLinesFrom, if_pos hexpression, List.filterMap_cons, hf]
          rfl
        rw [hnew, replaceFrom, if_pos rfl, ih, List.map_cons, amend, amendText,
          if_pos hexpression, hf]
        rfl
    · refine hkept (by rw [amendText, if_neg hexpression]) ?_
      rw [replacements, expressionLinesFrom, if_neg hexpression, replacements]

/-! ### What is kept -/

/-- **New texts that make lines of their own,** and expression lines again. -/
def KeepsLines : Prop :=
  ∀ text new, WithinLine text → isExpression text = true → f text = some new →
    WithinLine new.toList ∧ isExpression new.toList = true

variable {f}

/-- An amended text stays within its line, and it is an expression line if it was one. -/
theorem withinLine_amendText (hf : KeepsLines f) {text : List Char} (h : WithinLine text) :
    WithinLine (amendText f text) ∧ isExpression (amendText f text) = isExpression text := by
  unfold amendText
  split
  next hexpression =>
    cases hnew : f text with
    | none => exact ⟨h, rfl⟩
    | some new =>
      obtain ⟨hline, hagain⟩ := hf text new h hexpression hnew
      exact ⟨hline, hagain.trans hexpression.symm⟩
  next => exact ⟨h, rfl⟩

/-- The text of an amended line is the amended text. -/
theorem body_amend (hf : KeepsLines f) {raw : List Char} (h : WithinLine (body raw)) :
    body (amend f raw) = amendText f (body raw) :=
  body_append (withinLine_amendText hf h).1 fun _ hc => isEnding_of_mem_ending hc

/-- A line is amended in front of its line feed. -/
theorem amend_append_lineFeed (cs : List Char) : amend f (cs ++ ['\n']) = amend f cs ++ ['\n'] := by
  rw [amend, body_append_lineFeed, ending_append_lineFeed, amend, List.append_assoc]

/-- No line feed is put into a line. -/
theorem lineFeed_not_mem_amend (hf : KeepsLines f) {cs : List Char} (h : '\n' ∉ cs) :
    '\n' ∉ amend f cs := by
  rw [amend, List.mem_append, not_or]
  refine ⟨(withinLine_amendText hf (withinLine_body h)).1.lineFeed, fun hmem => h ?_⟩
  rw [← body_append_ending cs]
  exact List.mem_append_right _ hmem

/-- A line does not disappear. -/
theorem amend_ne_nil (hf : KeepsLines f) {cs : List Char} (hne : cs ≠ []) (h : '\n' ∉ cs) :
    amend f cs ≠ [] := by
  intro hnil
  obtain ⟨htext, hending⟩ := List.append_eq_nil_iff.mp hnil
  -- what is empty now is no expression, so it is what was there before
  have hnone := (withinLine_amendText hf (withinLine_body h)).2
  rw [htext] at hnone
  have hsame : amendText f (body cs) = body cs := by
    rw [amendText, ← hnone]
    rfl
  rw [hsame] at htext
  exact hne (by rw [← body_append_ending cs, htext, hending]; rfl)

/-- **Amended lines are lines.** -/
theorem areLines_map_amend (hf : KeepsLines f) {lines : List (List Char)} (h : AreLines lines) :
    AreLines (lines.map (amend f)) := by
  induction h with
  | nil => exact .nil
  | last hne h => exact .last (amend_ne_nil hf hne h) (lineFeed_not_mem_amend hf h)
  | cons h _ ih =>
    rw [List.map_cons, amend_append_lineFeed]
    exact .cons (lineFeed_not_mem_amend hf h) ih

/-- **The lines of the result are the lines of the source,** with new texts. -/
theorem rawLines_amended (hf : KeepsLines f) (source : String) :
    rawLines (amended f source).toList = (rawLines source.toList).map (amend f) := by
  rw [amended, String.toList_ofList]
  exact rawLines_flatten_of_areLines (areLines_map_amend hf (areLines_rawLines _))

/-- The text of a line stays within it. -/
theorem withinLine_of_mem {lines : List (List Char)} (h : AreLines lines) :
    ∀ raw ∈ lines, WithinLine (body raw) := by
  induction h with
  | nil => exact nofun
  | last _ h => exact List.forall_mem_singleton.mpr (withinLine_body h)
  | cons h _ ih =>
    refine List.forall_mem_cons.mpr ⟨?_, ih⟩
    rw [body_append_lineFeed]
    exact withinLine_body h

/-! ### Expression lines -/

/-- The texts of expression lines are those of the lines that are some, in their order. -/
theorem map_text_expressionLinesFrom (number offset : Nat) (raws : List (List Char)) :
    (expressionLinesFrom number offset raws).map (·.text) =
      (raws.map body).filter isExpression := by
  induction raws generalizing number offset with
  | nil => rfl
  | cons raw raws ih =>
    rw [expressionLinesFrom, List.map_cons, List.filter_cons]
    split
    · rw [List.map_cons, ih]
    · exact ih _ _

/-- The texts of the expression lines. -/
theorem map_text_expressionLines (source : String) :
    (expressionLines source).map (·.text) =
      ((rawLines source.toList).map body).filter isExpression :=
  map_text_expressionLinesFrom 1 0 _

/-- An expression line has the text of a line. -/
theorem mem_text_expressionLines {source : String} {line : SourceLine}
    (h : line ∈ expressionLines source) :
    ∃ raw ∈ rawLines source.toList, body raw = line.text ∧ isExpression line.text = true := by
  have hmem : line.text ∈ ((rawLines source.toList).map body).filter isExpression := by
    rw [← map_text_expressionLines]
    exact List.mem_map_of_mem h
  obtain ⟨htext, hexpression⟩ := List.mem_filter.mp hmem
  obtain ⟨raw, hraw, hbody⟩ := List.mem_map.mp htext
  exact ⟨raw, hraw, hbody, hexpression⟩

/-- **The expression lines of the result** are those of the source, with their new texts. -/
theorem map_text_amended (hf : KeepsLines f) (source : String) :
    (expressionLines (amended f source)).map (·.text) =
      (expressionLines source).map fun line => amendText f line.text := by
  have hwithin := withinLine_of_mem (areLines_rawLines source.toList)
  have hbodies : ((rawLines source.toList).map (amend f)).map body =
      ((rawLines source.toList).map body).map (amendText f) := by
    rw [List.map_map, List.map_map]
    exact List.map_congr_left fun raw hraw => body_amend hf (hwithin raw hraw)
  -- an amended line is an expression line exactly if it was one
  have hkept : ∀ text ∈ (rawLines source.toList).map body,
      (isExpression ∘ amendText f) text = isExpression text := by
    intro text htext
    obtain ⟨raw, hraw, rfl⟩ := List.mem_map.mp htext
    exact (withinLine_amendText hf (hwithin raw hraw)).2
  calc (expressionLines (amended f source)).map (·.text)
      = (((rawLines source.toList).map body).map (amendText f)).filter isExpression := by
        rw [map_text_expressionLines, rawLines_amended hf, hbodies]
    _ = (((rawLines source.toList).map body).filter isExpression).map (amendText f) := by
        rw [List.filter_map, List.filter_congr hkept]
    _ = (expressionLines source).map fun line => amendText f line.text := by
        rw [← map_text_expressionLines, List.map_map]
        rfl

/-- **The result is the source** if and only if every text stays as it was. -/
theorem amended_eq_iff (hf : KeepsLines f) (source : String) :
    amended f source = source ↔
    ∀ line ∈ expressionLines source, amendText f line.text = line.text := by
  have hlines : amended f source = source ↔
      (rawLines source.toList).map (amend f) = rawLines source.toList := by
    constructor
    · intro h
      rw [← rawLines_amended hf, h]
    · intro h
      rw [amended, h, rawLines_flatten, String.ofList_toList]
  have hraw : ∀ raw, amend f raw = raw ↔ amendText f (body raw) = body raw := by
    intro raw
    conv_lhs => rhs; rw [← body_append_ending raw]
    exact List.append_left_inj _
  rw [hlines]
  constructor
  · intro h line hline
    obtain ⟨raw, hmem, hbody, -⟩ := mem_text_expressionLines hline
    have hsame := List.map_eq_map_iff.mp (h.trans (List.map_id _).symm) raw hmem
    rw [← hbody]
    exact (hraw raw).mp hsame
  · intro h
    refine (List.map_congr_left fun raw hmem => ?_).trans (List.map_id _)
    refine (hraw raw).mpr ?_
    -- only expression lines are listed; any other line is kept whatever is put in
    by_cases hexpression : isExpression (body raw) = true
    · have htext : body raw ∈ (expressionLines source).map (·.text) := by
        rw [map_text_expressionLines]
        exact List.mem_filter.mpr ⟨List.mem_map_of_mem hmem, hexpression⟩
      obtain ⟨line, hline, htext⟩ := List.mem_map.mp htext
      rw [← htext]
      exact h line hline
    · rw [amendText, if_neg hexpression]

end Lines

end OperandOrder
