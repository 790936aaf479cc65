import Mathlib.Data.List.Basic
import OperandOrder.Host.Options
import OperandOrder.Proofs.PrintedLine

/-!
# Ranges as texts

`readRange_exact` says which texts are read as a range, and which range each of them is. A text is
divided at the first two dots in it, so that further dots belong to the second half and spoil it.
Either half, with the white space around it taken off, has to be a number: one or more digits,
behind a plus sign or none, leading zeros allowed, with a value that fits in 32 bits. The range is
not inverted.

Each of the three readers is compared with a relation that does not tell how the text is gone
through: `Text.FirstDots` for the division, `Text.Denotes` for the numbers, and white space on both
sides for `trim` (`Text.trim_surrounded`). The way back is short then. What is printed for a number
denotes it (`Text.denotes_toString`), it has neither dots nor white space in it, and so the first
dots of a printed range are the printed ones.
-/

namespace OperandOrder

namespace Text

/-! ### The first dots -/

/-- **A text divided at its first two dots:** no two dots begin further in front. -/
structure FirstDots (text before after : List Char) : Prop where
  whole : text = before ++ '.' :: '.' :: after
  first : ∀ front back, text = front ++ '.' :: '.' :: back → before.length ≤ front.length

/-- A character that begins no two dots comes to stand before the division. -/
theorem FirstDots.cons {text before after : List Char} (h : FirstDots text before after) {c : Char}
    (hc : ∀ cs, c :: text ≠ '.' :: '.' :: cs) : FirstDots (c :: text) (c :: before) after where
  whole := congrArg (c :: ·) h.whole
  first := by
    intro front back hwhole
    cases front with
    | nil => exact absurd hwhole (hc back)
    | cons d front =>
      obtain ⟨rfl, htext⟩ := List.cons.inj hwhole
      exact Nat.succ_le_succ (h.first front back htext)

/-- A text has its first dots in one place only. -/
theorem FirstDots.unique {text before after before' after' : List Char}
    (h : FirstDots text before after) (h' : FirstDots text before' after') :
    before = before' ∧ after = after' := by
  have hlength : before.length = before'.length :=
    Nat.le_antisymm (h.first _ _ h'.whole) (h'.first _ _ h.whole)
  obtain ⟨hbefore, hafter⟩ := List.append_inj (h.whole.symm.trans h'.whole) hlength
  exact ⟨hbefore, List.cons.inj (List.cons.inj hafter).2 |>.2⟩

/-- What is found is the first pair of dots. -/
theorem firstDots_of_splitAtDots? {text before after : List Char}
    (h : splitAtDots? text = some (before, after)) : FirstDots text before after := by
  induction text using splitAtDots?.induct generalizing before with
  | case1 => exact nomatch h
  | case2 cs =>
    obtain ⟨rfl, rfl⟩ := Prod.mk.inj (Option.some.inj h)
    exact ⟨rfl, fun front _ _ => Nat.zero_le front.length⟩
  | case3 c cs hdots ih =>
    rw [splitAtDots?] at h
    · obtain ⟨⟨before, after⟩, hsplit, hpair⟩ := Option.map_eq_some_iff.mp h
      obtain ⟨rfl, rfl⟩ := Prod.mk.inj hpair
      refine (ih hsplit).cons ?_
      intro rest hrest
      obtain ⟨rfl, rfl⟩ := List.cons.inj hrest
      exact hdots rest rfl rfl
    · exact hdots

/-- Where there are two dots, the text is divided. -/
theorem exists_splitAtDots? (before after : List Char) :
    ∃ parts, splitAtDots? (before ++ '.' :: '.' :: after) = some parts := by
  induction before with
  | nil => exact ⟨_, rfl⟩
  | cons c before ih =>
    obtain ⟨parts, hparts⟩ := ih
    rw [List.cons_append, splitAtDots?.eq_def]
    split
    next h => exact nomatch h
    next => exact ⟨_, rfl⟩
    next hcs =>
      obtain ⟨rfl, rfl⟩ := List.cons.inj hcs
      rw [hparts]
      exact ⟨_, rfl⟩

/-- **The division is at the first dots,** and it fails only where there are none. -/
theorem splitAtDots?_eq_some_iff {text before after : List Char} :
    splitAtDots? text = some (before, after) ↔ FirstDots text before after := by
  constructor
  · exact firstDots_of_splitAtDots?
  · intro h
    obtain ⟨⟨before', after'⟩, hparts⟩ := exists_splitAtDots? before after
    rw [← h.whole] at hparts
    obtain ⟨rfl, rfl⟩ := h.unique (firstDots_of_splitAtDots? hparts)
    exact hparts

/-- A text without dots in front of two dots is all that comes before them. -/
theorem firstDots_of_notMem {before : List Char} (h : '.' ∉ before) (after : List Char) :
    FirstDots (before ++ '.' :: '.' :: after) before after := by
  refine ⟨rfl, ?_⟩
  intro front back hwhole
  by_contra hshort
  -- the dots would begin inside the text before
  have hplace : (before ++ '.' :: '.' :: after)[front.length]? = some '.' := by
    rw [hwhole, List.getElem?_append_right (Nat.le_refl _), Nat.sub_self]
    rfl
  rw [List.getElem?_append_left (Nat.lt_of_not_le hshort)] at hplace
  exact h (List.mem_of_getElem? hplace)

/-! ### Numbers -/

/-- **A text that denotes a number:** one or more digits, behind a plus sign or none. -/
def Denotes (cs : List Char) (n : Nat) : Prop :=
  ∃ digits, (cs = digits ∨ cs = '+' :: digits) ∧ digits ≠ [] ∧ (∀ d ∈ digits, d.isDigit = true) ∧
    Nat.ofDigitChars 10 digits 0 = n

theorem digitsValue_eq (digits : List Char) :
    digitsValue digits = Nat.ofDigitChars 10 digits 0 := by
  rw [Nat.ofDigitChars_eq_foldl]
  rfl

/-- Digits have no sign in front. -/
theorem dropPlus_digits {digits : List Char} (h : ∀ d ∈ digits, d.isDigit = true) :
    dropPlus digits = digits := by
  unfold dropPlus
  split
  · exact absurd (h '+' List.mem_cons_self) (by decide)
  · rfl

theorem eq_or_plus (cs : List Char) : cs = dropPlus cs ∨ cs = '+' :: dropPlus cs := by
  unfold dropPlus
  split
  · exact .inr rfl
  · exact .inl rfl

/-- **A number is read** if it is within the limit, however many zeros are in front of it. -/
theorem decimal?_eq_some_iff {limit n : Nat} {cs : List Char} :
    decimal? limit cs = some n ↔ Denotes cs n ∧ n ≤ limit := by
  have hread : decimal? limit cs = some n ↔
      (dropPlus cs ≠ [] ∧ (dropPlus cs).all Char.isDigit = true ∧
      digitsValue (dropPlus cs) ≤ limit) ∧ digitsValue (dropPlus cs) = n := by
    rw [decimal?]
    split
    next h => simp [h]
    next h => simp only [reduceCtorEq, h, false_and]
  rw [hread, List.all_eq_true, digitsValue_eq]
  constructor
  · rintro ⟨⟨hne, hdigits, hle⟩, rfl⟩
    exact ⟨⟨dropPlus cs, eq_or_plus cs, hne, hdigits, rfl⟩, hle⟩
  · rintro ⟨⟨digits, hcs, hne, hdigits, rfl⟩, hle⟩
    -- a plus in front is dropped, and a digit is no plus
    have hdrop : dropPlus cs = digits := by
      rcases hcs with rfl | rfl
      · exact dropPlus_digits hdigits
      · rfl
    rw [hdrop]
    exact ⟨⟨hne, hdigits, hle⟩, rfl⟩

/-! ### Printed numbers -/

theorem isDigit_of_mem_toString {n : Nat} {d : Char} (h : d ∈ (toString n).toList) :
    d.isDigit = true := by
  have hdigit : d ∈ n.repr.toList := h
  rw [Nat.toList_repr] at hdigit
  exact Nat.isDigit_of_mem_toDigits (by decide) (by decide) hdigit

theorem toList_toString_ne_nil (n : Nat) : (toString n).toList ≠ [] := by
  change n.repr.toList ≠ []
  rw [Nat.toList_repr]
  exact Nat.toDigits_ne_nil

/-- **What is printed for a number** denotes it. -/
theorem denotes_toString (n : Nat) : Denotes (toString n).toList n := by
  refine ⟨_, .inl rfl, toList_toString_ne_nil n, fun d hd => isDigit_of_mem_toString hd, ?_⟩
  · change Nat.ofDigitChars 10 n.repr.toList 0 = n
    rw [Nat.toList_repr]
    exact Nat.ofDigitChars_toDigits (by decide) (by decide)

/-! ### White space on both sides -/

/-- White space in front is passed over, up to a text that has none in it. -/
theorem dropWhile_isBlank_append {front core : List Char} (hfront : ∀ c ∈ front, isBlank c = true)
    (hne : core ≠ []) (hcore : ∀ c ∈ core, isBlank c = false) (rest : List Char) :
    (front ++ (core ++ rest)).dropWhile isBlank = core ++ rest := by
  obtain ⟨c, cs, rfl⟩ := List.exists_cons_of_ne_nil hne
  have hc : ¬isBlank c = true := by simp [hcore c List.mem_cons_self]
  rw [List.dropWhile_append_of_pos hfront, List.cons_append, List.dropWhile_cons_of_neg hc]

/-- **White space around a text** that has none in it is taken off. -/
theorem trim_surrounded {front core back : List Char} (hfront : ∀ c ∈ front, isBlank c = true)
    (hback : ∀ c ∈ back, isBlank c = true) (hne : core ≠ [])
    (hcore : ∀ c ∈ core, isBlank c = false) :
    trim (front ++ core ++ back) = core := by
  have hstart : trimStart (front ++ core ++ back) = core ++ back := by
    rw [trimStart, List.append_assoc, dropWhile_isBlank_append hfront hne hcore]
  -- from behind it is the same text, read the other way round
  have hend := @dropWhile_isBlank_append back.reverse core.reverse (by simpa using hback)
    (by simpa using hne) (by simpa using hcore) []
  rw [List.append_nil] at hend
  rw [trim, hstart, trimEnd, List.reverse_append, hend, List.reverse_reverse]

theorem not_isBlank_of_mem_toString {n : Nat} {d : Char} (h : d ∈ (toString n).toList) :
    isBlank d = false :=
  not_textBlank_of_isDigit (isDigit_of_mem_toString h)

/-- A printed number with white space around it denotes the number, once that is taken off. -/
theorem denotes_trim_surrounded {front back : List Char} (hfront : ∀ c ∈ front, isBlank c = true)
    (hback : ∀ c ∈ back, isBlank c = true) (n : Nat) :
    Denotes (trim (front ++ (toString n).toList ++ back)) n := by
  rw [trim_surrounded hfront hback (toList_toString_ne_nil n)
    fun _ hd => not_isBlank_of_mem_toString hd]
  exact denotes_toString n

end Text

open Text

/-! ### Ranges -/

/-- A range is accepted if its text is one. -/
theorem readRange_eq_ok_iff {text : String} {range : Span} :
    readRange text = .ok range ↔ Span.ofText? text = some range := by
  unfold readRange
  split
  next found h => rw [h, Except.ok.injEq, Option.some.injEq]
  next h => simp [h]

theorem readRange_eq_error {text : String} (h : ∀ range, readRange text ≠ .ok range) :
    readRange text = .error (.badRange text) := by
  cases hread : Span.ofText? text with
  | none => rw [readRange, hread]
  | some range => exact absurd (readRange_eq_ok_iff.mpr hread) (h range)

/-- **The texts of ranges.** -/
theorem ofText?_eq_some_iff {text : String} {range : Span} :
    Span.ofText? text = some range ↔ ∃ before after, FirstDots text.toList before after ∧
      Denotes (trim before) range.start ∧ Denotes (trim after) range.stop ∧
      range.stop ≤ Span.limit ∧ range.start ≤ range.stop := by
  simp only [Span.ofText?, Option.bind_eq_bind, Option.bind_eq_some_iff, Prod.exists,
    splitAtDots?_eq_some_iff, decimal?_eq_some_iff, Option.ite_none_right_eq_some,
      Option.some.injEq]
  constructor
  · rintro ⟨before, after, hdots, start, ⟨hstart, -⟩, stop, ⟨hstop, hlimit⟩, hle, rfl⟩
    exact ⟨before, after, hdots, hstart, hstop, hlimit, hle⟩
  · rintro ⟨before, after, hdots, hstart, hstop, hlimit, hle⟩
    exact ⟨before, after, hdots, range.start, ⟨hstart, Nat.le_trans hle hlimit⟩, range.stop,
      ⟨hstop, hlimit⟩, hle, rfl⟩

/-- The text of a range with other texts around its numbers. -/
def Span.spaced (range : Span) (a b c d : List Char) : String :=
  String.ofList (a ++ (toString range.start).toList ++ b ++ '.' :: '.' ::
    (c ++ (toString range.stop).toList ++ d))

theorem Span.spaced_nil (range : Span) : range.spaced [] [] [] [] = range.text := by
  rw [Span.spaced, Span.text, ← String.toList_inj]
  simp [String.toList_ofList, String.toList_append]

/-- **A printed range is read back,** whatever white space is put around its numbers. -/
theorem readRange_spaced {range : Span} (hle : range.start ≤ range.stop)
    (hlimit : range.stop ≤ Span.limit) {a b c d : List Char} (ha : ∀ x ∈ a, isBlank x = true)
    (hb : ∀ x ∈ b, isBlank x = true) (hc : ∀ x ∈ c, isBlank x = true)
    (hd : ∀ x ∈ d, isBlank x = true) : readRange (range.spaced a b c d) = .ok range := by
  -- neither white space nor a printed number has a dot in it
  have hblank : ∀ cs : List Char, (∀ x ∈ cs, isBlank x = true) → '.' ∉ cs := by
    intro cs hcs hdot
    exact absurd (hcs '.' hdot) (by decide)
  have hnumber : '.' ∉ (toString range.start).toList := by
    intro hdot
    exact absurd (isDigit_of_mem_toString hdot) (by decide)
  have hdots : '.' ∉ a ++ (toString range.start).toList ++ b := by
    simp only [List.mem_append, not_or]
    exact ⟨⟨hblank a ha, hnumber⟩, hblank b hb⟩
  rw [readRange_eq_ok_iff, ofText?_eq_some_iff]
  refine ⟨_, _, ?_, denotes_trim_surrounded ha hb range.start,
    denotes_trim_surrounded hc hd range.stop, hlimit, hle⟩
  rw [Span.spaced, String.toList_ofList]
  exact firstDots_of_notMem hdots _

/-- **Ranges and their texts.** A range that is not inverted is read from its printed text, with any
white space around its numbers; what is read is never inverted; and a text is read exactly if either
side of its first two dots, with the white space around it taken off, denotes a number of 32 bits
and the first number is not above the second. -/
theorem readRange_exact :
    (∀ range : Span, range.start ≤ range.stop → range.stop ≤ Span.limit →
      readRange range.text = .ok range ∧
      ∀ a b c d : List Char, (∀ x ∈ a ++ b ++ c ++ d, isBlank x = true) →
        readRange (range.spaced a b c d) = .ok range) ∧
    (∀ text range, readRange text = .ok range → range.start ≤ range.stop) ∧
    (∀ text range, readRange text = .ok range ↔ ∃ before after,
      FirstDots text.toList before after ∧
      Denotes (trim before) range.start ∧ Denotes (trim after) range.stop ∧
      range.start ≤ Span.limit ∧ range.stop ≤ Span.limit ∧ range.start ≤ range.stop) := by
  refine ⟨?_, ?_, ?_⟩
  · intro range hle hlimit
    refine ⟨?_, ?_⟩
    · rw [← range.spaced_nil]
      exact readRange_spaced hle hlimit nofun nofun nofun nofun
    · intro a b c d hblank
      simp only [List.forall_mem_append] at hblank
      obtain ⟨⟨⟨ha, hb⟩, hc⟩, hd⟩ := hblank
      exact readRange_spaced hle hlimit ha hb hc hd
  · intro text range hread
    rw [readRange_eq_ok_iff, ofText?_eq_some_iff] at hread
    obtain ⟨-, -, -, -, -, -, hle⟩ := hread
    exact hle
  · -- a range that ends within the limit begins within it
    intro text range
    rw [readRange_eq_ok_iff, ofText?_eq_some_iff]
    constructor
    · rintro ⟨before, after, hdots, hstart, hstop, hlimit, hle⟩
      exact ⟨before, after, hdots, hstart, hstop, Nat.le_trans hle hlimit, hlimit, hle⟩
    · rintro ⟨before, after, hdots, hstart, hstop, -, hlimit, hle⟩
      exact ⟨before, after, hdots, hstart, hstop, hlimit, hle⟩

/-- A range that ends at the limit, with white space of three kinds around its numbers. -/
theorem readRange_exact_spaced :
    (7 ≤ Span.limit ∧ ∀ x ∈ ['\t'] ++ ['\u00a0'] ++ ['\u3000', ' '] ++ [], isBlank x = true) ∧
    readRange "\t7\u00a0..\u3000 4294967295" = .ok ⟨7, Span.limit⟩ ∧
    ∀ range, readRange "7...9" ≠ .ok range := by
  have hblank : ∀ x ∈ ['\t'] ++ ['\u00a0'] ++ ['\u3000', ' '] ++ [], isBlank x = true :=
    List.all_eq_true.mp (by decide)
  obtain ⟨hspaced, -, hexact⟩ := readRange_exact
  refine ⟨⟨by decide, hblank⟩, ?_, ?_⟩
  · have hread := (hspaced ⟨7, Span.limit⟩ (by decide) (by decide)).2 _ _ _ _ hblank
    have htext : Span.spaced ⟨7, Span.limit⟩ ['\t'] ['\u00a0'] ['\u3000', ' '] [] =
        "\t7\u00a0..\u3000 4294967295" := by decide +kernel
    rwa [htext] at hread
  · intro range hread
    -- the third dot belongs to the second half, which is no number then
    obtain ⟨before, after, hdots, -, hstop, -⟩ := (hexact _ range).mp hread
    have hparts : FirstDots "7...9".toList ['7'] ['.', '9'] :=
      @firstDots_of_notMem ['7'] (by decide) ['.', '9']
    obtain ⟨rfl, rfl⟩ := hdots.unique hparts
    obtain ⟨digits, hdigits, -, hall, -⟩ := hstop
    have htrim : trim ['.', '9'] = ['.', '9'] := by decide
    rw [htrim] at hdigits
    rcases hdigits with rfl | h
    · exact absurd (hall '.' List.mem_cons_self) (by decide)
    · exact absurd (List.cons.inj h).1 (by decide)

end OperandOrder
