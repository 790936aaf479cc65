import Mathlib.Computability.Language
import Mathlib.Data.List.TakeWhile
import OperandOrder.Proofs.Token.Spelling

/-!
# Patterns of tokens

`TokenKind.pattern` says for each kind of token which texts are of that kind, as a language put
together from classes of characters by union, concatenation and repetition. Nothing in it refers to
how tokens are read.

A part of a lexeme is read by a reach, which takes as many characters as it can. That is right for a
part of a pattern if the reach takes a text of the part, and no longer text of the part stands
there: `Lexeme.Greedy g l p`. What makes greedy reading right for parts *in a row* is the third
thing it says: a text of the part is not carried on by a character of `p`. If every text of the next
part begins with such a character, then the first part has been taken to its end wherever the next
one takes anything (`Lexeme.Greedy.andThen`). So digits, fraction, exponent and suffix of a number
are each taken as far as they go, and an exponent or a fraction that begins but does not complete is
left alone.

Quotes need no such argument: a text between quotes is over at the first quote that no backslash
escapes, so there is at most one such text (`Lexeme.quotedReach?_of_mem`).
-/

namespace OperandOrder

open Computability

namespace Lexeme

/-! ### Classes of characters -/

/-- Whether a character is in one of some ranges, both ends included. -/
def inRanges (ranges : List (Char × Char)) (c : Char) : Bool :=
  ranges.any fun r => r.1 ≤ c && c ≤ r.2

/-- One character of a class. -/
def single (p : Char → Bool) : Language Char := {w | ∃ c, p c = true ∧ w = [c]}

/-- One character of some ranges. -/
def oneOf (ranges : List (Char × Char)) : Language Char := single (inRanges ranges)

/-- One of some characters. -/
def anyOf (cs : List Char) : Language Char := single fun c => cs.contains c

/-- One character other than some. -/
def noneOf (cs : List Char) : Language Char := single fun c => !cs.contains c

/-- A text as it stands. -/
def exactly (text : String) : Language Char := {text.toList}

/-- A part that may be left out. -/
def maybe (l : Language Char) : Language Char := 1 + l

/-- A part once or more. -/
def many (l : Language Char) : Language Char := l * l∗

end Lexeme

open Lexeme

/-! ### The patterns -/

namespace Pattern

/-- A letter, or one of the two signs that may begin a word as well. -/
def wordStart : Language Char := oneOf [('A', 'Z'), ('a', 'z'), ('_', '_'), ('$', '$')]

def wordChar : Language Char := oneOf [('A', 'Z'), ('a', 'z'), ('0', '9'), ('_', '_'), ('$', '$')]

def digit : Language Char := oneOf [('0', '9')]

def digitOrMark : Language Char := oneOf [('0', '9'), ('_', '_')]

def hexOrMark : Language Char := oneOf [('0', '9'), ('a', 'f'), ('A', 'F'), ('_', '_')]

def fraction : Language Char := exactly "." * (digit * digitOrMark∗)

def exponent : Language Char :=
  anyOf ['e', 'E'] * (maybe (anyOf ['+', '-']) * many digit)

/-- What follows the first digit of a decimal number. -/
def decimalTail : Language Char :=
  digitOrMark∗ * maybe fraction * maybe exponent * maybe (anyOf ['l', 'L', 'f', 'F', 'd', 'D'])

def decimal : Language Char := digit * decimalTail

/-- What follows the mark of a hexadecimal number. -/
def hexTail : Language Char := many hexOrMark * maybe (anyOf ['l', 'L'])

def hexadecimal : Language Char := exactly "0" * (anyOf ['x', 'X'] * hexTail)

/-- What may stand between quotes: any character but the quote, a backslash and a line feed, and any
character but a line feed behind a backslash. -/
def quotedItem (quote : Char) : Language Char :=
  noneOf [quote, '\\', '\n'] + exactly "\\" * noneOf ['\n']

def quotation (quote : Char) : Language Char :=
  anyOf [quote] * ((quotedItem quote)∗ * anyOf [quote])

end Pattern

open Pattern in

/-- **The texts of each kind.** -/
def TokenKind.pattern : TokenKind → Language Char
  | .trueWord => exactly "true"
  | .falseWord => exactly "false"
  | .nullWord => exactly "null"
  | .ident => wordStart * wordChar∗
  | .number => decimal + hexadecimal
  | .str => quotation '\x22'
  | .char => quotation '\x27'
  | .leftParen => exactly "("
  | .rightParen => exactly ")"
  | .comma => exactly ","
  | .dot => exactly "."
  | .question => exactly "?"
  | .colon => exactly ":"
  | .bang => exactly "!"
  | .tilde => exactly "~"
  | .operator op => exactly op.symbol

/-- The kinds that win over names. -/
def TokenKind.isKeyword : TokenKind → Bool
  | .trueWord | .falseWord | .nullWord => true
  | _ => false

namespace Lexeme

/-! ### Texts of a language -/

/-- One character of a class. -/
theorem mem_single {p : Char → Bool} {w : List Char} : w ∈ single p ↔ ∃ c, p c = true ∧ w = [c] :=
  Iff.rfl

/-- One text. -/
theorem mem_exactly {text : String} {w : List Char} : w ∈ exactly text ↔ w = text.toList :=
  Iff.rfl

/-- Nothing, or a word of the language. -/
theorem mem_maybe {l : Language Char} {w : List Char} : w ∈ maybe l ↔ w = [] ∨ w ∈ l :=
  Iff.rfl

/-- A text begins with a character of the class, and the rest is left to what follows the class. -/
theorem mem_single_mul {p : Char → Bool} {l : Language Char} {w : List Char} :
    w ∈ single p * l ↔ ∃ c v, p c = true ∧ v ∈ l ∧ w = c :: v := by
  rw [Language.mem_mul]
  constructor
  · rintro ⟨-, ⟨c, hc, rfl⟩, v, hv, rfl⟩
    exact ⟨c, v, hc, hv, rfl⟩
  · rintro ⟨c, v, hc, hv, rfl⟩
    exact ⟨[c], ⟨c, hc, rfl⟩, v, hv, rfl⟩

/-- A character of a class in front of a language. -/
theorem cons_mem_single_mul {p : Char → Bool} {l : Language Char} {c : Char} {w : List Char} :
    c :: w ∈ single p * l ↔ p c = true ∧ w ∈ l := by
  rw [mem_single_mul]
  constructor
  · rintro ⟨d, v, hd, hv, heq⟩
    obtain ⟨rfl, rfl⟩ := List.cons.inj heq
    exact ⟨hd, hv⟩
  · rintro ⟨hc, hw⟩
    exact ⟨c, w, hc, hw, rfl⟩

/-- A text in front of a language. -/
theorem mem_exactly_mul {text : String} {l : Language Char} {w : List Char} :
    w ∈ exactly text * l ↔ ∃ v ∈ l, w = text.toList ++ v := by
  rw [Language.mem_mul]
  constructor
  · rintro ⟨-, rfl, v, hv, rfl⟩
    exact ⟨v, hv, rfl⟩
  · rintro ⟨v, hv, rfl⟩
    exact ⟨_, rfl, v, hv, rfl⟩

/-- Any number of words is none, or one and any number of words. -/
theorem mem_kstar_cases {l : Language Char} {w : List Char} : w ∈ l∗ ↔ w = [] ∨ w ∈ l * l∗ := by
  rw [← mem_maybe, maybe, Language.one_add_self_mul_kstar_eq_kstar]

/-- Characters of a class, one after the other. -/
theorem mem_kstar_single {p : Char → Bool} {w : List Char} :
    w ∈ (single p)∗ ↔ ∀ c ∈ w, p c = true := by
  induction w with
  | nil => exact iff_of_true (Language.nil_mem_kstar _) (List.forall_mem_nil _)
  | cons c w ih =>
    rw [mem_kstar_cases, cons_mem_single_mul, ih, List.forall_mem_cons]
    exact or_iff_right (List.cons_ne_nil c w)

/-- Characters of a class, at least one of them. -/
theorem mem_many_single {p : Char → Bool} {w : List Char} :
    w ∈ many (single p) ↔ w ≠ [] ∧ ∀ c ∈ w, p c = true := by
  cases w with
  | nil =>
    rw [many, mem_single_mul]
    simp
  | cons c w =>
    rw [many, cons_mem_single_mul, mem_kstar_single, List.forall_mem_cons]
    exact (and_iff_right (List.cons_ne_nil c w)).symm

/-! ### The classes of the patterns -/

/-- A range of one character. -/
theorem between_self (c d : Char) : (d ≤ c ∧ c ≤ d) ↔ c = d := by
  constructor
  · rintro ⟨hlow, hhigh⟩
    exact Char.le_antisymm hhigh hlow
  · rintro rfl
    exact ⟨Char.le_refl c, Char.le_refl c⟩

/-- A class that is given by ranges. -/
theorem oneOf_eq {ranges : List (Char × Char)} {p : Char → Bool}
    (h : ∀ c, (∃ r ∈ ranges, r.1 ≤ c ∧ c ≤ r.2) ↔ p c = true) : oneOf ranges = single p := by
  refine congrArg single (funext fun c => ?_)
  rw [Bool.eq_iff_iff, ← h c]
  simp only [inRanges, List.any_eq_true, Bool.and_eq_true, decide_eq_true_eq]

theorem wordStart_eq : Pattern.wordStart = single isWordStart :=
  oneOf_eq fun c => by simp [isWordStart, isAlpha_iff, between_self, or_assoc]

theorem wordChar_eq : Pattern.wordChar = single isWordChar :=
  oneOf_eq fun c => by
    simp only [isWordChar, isWordStart, isAlpha_iff, isDigit_iff, between_self, Bool.or_eq_true,
      List.exists_mem_cons_iff, beq_iff_eq, List.not_mem_nil, false_and, exists_false, or_false]
    tauto

theorem digit_eq : Pattern.digit = single Char.isDigit := oneOf_eq fun c => by simp [isDigit_iff]

theorem digitOrMark_eq : Pattern.digitOrMark = single isDigitOrMark :=
  oneOf_eq fun c => by simp [isDigitOrMark, isDigit_iff, between_self]

theorem hexOrMark_eq : Pattern.hexOrMark = single isHexOrMark :=
  oneOf_eq fun c => by simp [isHexOrMark, isDigit_iff, between_self, or_assoc]

/-! ### Greedy reaches -/

/-- **A reach that is right for a part of a pattern:** what it takes is of the part, no longer
text of the part stands there, and a text of the part with a character of `p` behind it is
taken alone. -/
structure Greedy (g : List Char → Nat) (l : Language Char) (p : Char → Prop) : Prop where
  mem : ∀ cs : List Char, cs.take (g cs) ∈ l
  le : ∀ w ∈ l, ∀ rest, w.length ≤ g (w ++ rest)
  stops : ∀ w ∈ l, ∀ (c : Char) (rest : List Char), p c → g (w ++ c :: rest) = w.length

/-- **One part after another.** -/
theorem Greedy.andThen {g h : List Char → Nat} {l m : Language Char} {p q : Char → Prop}
    (hg : Greedy g l p) (hh : Greedy h m q) (hbegins : ∀ c w, c :: w ∈ m → p c) :
    Greedy (fun cs => g cs + h (cs.drop (g cs))) (l * m) fun c => p c ∧ q c := by
  refine ⟨fun cs => ?_, ?_, ?_⟩
  · rw [List.take_add]
    exact Language.append_mem_mul (hg.mem cs) (hh.mem _)
  · intro w hw rest
    obtain ⟨a, ha, b, hb, rfl⟩ := Language.mem_mul.mp hw
    rw [List.append_assoc, List.length_append]
    cases b with
    | nil => exact (hg.le a ha _).trans (Nat.le_add_right _ _)
    | cons c b =>
      -- the second part begins where the first one has to end
      have hfirst : g (a ++ (c :: b ++ rest)) = a.length := hg.stops a ha c _ (hbegins c b hb)
      rw [hfirst, List.drop_left]
      exact Nat.add_le_add_left (hh.le _ hb rest) _
  · intro w hw d rest hd
    obtain ⟨a, ha, b, hb, rfl⟩ := Language.mem_mul.mp hw
    have hfirst : g (a ++ (b ++ d :: rest)) = a.length := by
      cases b with
      | nil => exact hg.stops a ha d rest hd.1
      | cons c b => exact hg.stops a ha c _ (hbegins c b hb)
    simp only [List.append_assoc, List.length_append]
    rw [hfirst, List.drop_left, hh.stops b hb d rest hd.2]

/-- The characters that are reached are those in front that are of the class. -/
theorem take_reach (p : Char → Bool) (cs : List Char) : cs.take (reach p cs) = cs.takeWhile p :=
  (List.prefix_iff_eq_take.mp (List.takeWhile_prefix p)).symm

/-- Repetition of a class. -/
theorem greedy_reach (p : Char → Bool) : Greedy (reach p) (single p)∗ fun c => p c = false := by
  refine ⟨fun cs => ?_, ?_, ?_⟩
  · rw [take_reach, mem_kstar_single]
    intro c hc
    exact List.mem_takeWhile_imp hc
  · intro w hw rest
    rw [reach_append (mem_kstar_single.mp hw)]
    exact Nat.le_add_right _ _
  · intro w hw c rest hc
    rw [reach_append (mem_kstar_single.mp hw), reach_cons,
      if_neg (by rw [hc]; exact Bool.false_ne_true), Nat.add_zero]

/-- A part that may be left out: the reach takes nothing, or a text of the part. -/
theorem greedy_maybe {g : List Char → Nat} {l : Language Char} {p : Char → Prop}
    (hmem : ∀ cs, g cs = 0 ∨ cs.take (g cs) ∈ l) (hle : ∀ w ∈ l, ∀ rest, w.length ≤ g (w ++ rest))
    (hstops : ∀ w ∈ l, ∀ c rest, p c → g (w ++ c :: rest) = w.length)
    (hnone : ∀ c rest, p c → g (c :: rest) = 0) : Greedy g (maybe l) p := by
  refine ⟨fun cs => ?_, ?_, ?_⟩
  · refine mem_maybe.mpr ((hmem cs).imp_left fun hzero => ?_)
    rw [hzero, List.take_zero]
  · intro w hw rest
    rcases mem_maybe.mp hw with rfl | hw
    · exact Nat.zero_le _
    · exact hle w hw rest
  · intro w hw c rest hc
    rcases mem_maybe.mp hw with rfl | hw
    · exact hnone c rest hc
    · exact hstops w hw c rest hc

/-! ### Numbers -/

/-- **A fraction:** a point, a digit, and more digits or marks. -/
theorem mem_fraction {w : List Char} : w ∈ Pattern.fraction ↔
    ∃ d ds, d.isDigit = true ∧ (∀ c ∈ ds, isDigitOrMark c = true) ∧ w = '.' :: d :: ds := by
  rw [Pattern.fraction, digit_eq, digitOrMark_eq, mem_exactly_mul]
  constructor
  · rintro ⟨v, hv, rfl⟩
    obtain ⟨d, ds, hd, hds, rfl⟩ := mem_single_mul.mp hv
    exact ⟨d, ds, hd, mem_kstar_single.mp hds, rfl⟩
  · rintro ⟨d, ds, hd, hds, rfl⟩
    exact ⟨d :: ds, mem_single_mul.mpr ⟨d, ds, hd, mem_kstar_single.mpr hds, rfl⟩, rfl⟩

/-- A point with a digit behind it begins a fraction. -/
theorem fractionReach_of_digit {d : Char} (hd : d.isDigit = true) (cs : List Char) :
    fractionReach ('.' :: d :: cs) = 2 + reach isDigitOrMark cs := by
  rw [fractionReach_cons, if_pos rfl, pointReach, if_pos hd]

/-- A fraction is reached, or there is none in front. -/
theorem fractionReach_cases (cs : List Char) : fractionReach cs = 0 ∨
    ∃ d ds, d.isDigit = true ∧ cs = '.' :: d :: ds ∧
      fractionReach cs = 2 + reach isDigitOrMark ds := by
  match cs with
  | [] => exact .inl rfl
  | [c] =>
    rw [fractionReach_cons]
    split <;> exact .inl rfl
  | c :: d :: ds =>
    rw [fractionReach_cons]
    split
    next hc =>
      rw [pointReach]
      split
      next hd => exact .inr ⟨d, ds, hd, by rw [hc], rfl⟩
      next => exact .inl rfl
    next => exact .inl rfl

/-- A fraction is taken with all its digits; a point without a digit is left. -/
theorem greedy_fraction :
    Greedy fractionReach (maybe Pattern.fraction) fun c => c ≠ '.' ∧ isDigitOrMark c = false := by
  have hdigits := greedy_reach isDigitOrMark
  -- what is reached is a fraction, the longest there is; it may be left out
  refine greedy_maybe ?_ ?_ ?_ ?_
  · intro cs
    refine (fractionReach_cases cs).imp_right ?_
    rintro ⟨d, ds, hd, rfl, hreach⟩
    rw [hreach, Nat.add_comm, List.take_succ_cons, List.take_succ_cons]
    exact mem_fraction.mpr ⟨d, _, hd, mem_kstar_single.mp (hdigits.mem ds), rfl⟩
  · intro w hw rest
    obtain ⟨d, ds, hd, hds, rfl⟩ := mem_fraction.mp hw
    rw [List.cons_append, List.cons_append, fractionReach_of_digit hd, List.length_cons,
      List.length_cons]
    have hle := hdigits.le ds (mem_kstar_single.mpr hds) rest
    omega
  · intro w hw c rest hc
    obtain ⟨d, ds, hd, hds, rfl⟩ := mem_fraction.mp hw
    rw [List.cons_append, List.cons_append, fractionReach_of_digit hd,
      hdigits.stops ds (mem_kstar_single.mpr hds) c rest hc.2, List.length_cons, List.length_cons]
    omega
  · intro c rest hc
    rw [fractionReach_cons, if_neg hc.1]

/-- **An exponent:** its letter, a sign or none, and at least one digit. -/
theorem mem_exponent {w : List Char} : w ∈ Pattern.exponent ↔ ∃ e sign ds, (e = 'e' ∨ e = 'E') ∧
    (sign = [] ∨ sign = ['+'] ∨ sign = ['-']) ∧ ds ≠ [] ∧ (∀ c ∈ ds, c.isDigit = true) ∧
      w = e :: (sign ++ ds) := by
  have hsign : ∀ s, s ∈ maybe (anyOf ['+', '-']) ↔ s = [] ∨ s = ['+'] ∨ s = ['-'] := by
    intro s
    simp [mem_maybe, anyOf, mem_single]
  rw [Pattern.exponent, digit_eq, anyOf, mem_single_mul]
  constructor
  · rintro ⟨e, v, he, hv, rfl⟩
    obtain ⟨s, hs, ds, hds, rfl⟩ := Language.mem_mul.mp hv
    obtain ⟨hne, hdigits⟩ := mem_many_single.mp hds
    exact ⟨e, s, ds, by simpa using he, (hsign s).mp hs, hne, hdigits, rfl⟩
  · rintro ⟨e, s, ds, he, hs, hne, hdigits, rfl⟩
    refine ⟨e, s ++ ds, by simpa using he, Language.append_mem_mul ((hsign s).mpr hs) ?_, rfl⟩
    exact mem_many_single.mpr ⟨hne, hdigits⟩

/-- Without a digit there is no exponent. -/
theorem exponentDigits_eq (lead : Nat) (cs : List Char) : exponentDigits lead cs =
    if reach Char.isDigit cs = 0 then 0 else lead + reach Char.isDigit cs := by
  unfold exponentDigits
  split
  next h => rw [if_pos h]
  next n h => rw [if_neg (by omega), h, Nat.add_assoc]

/-- Digits behind the letter of an exponent and its sign, if it has one. -/
theorem exponentReach_append {e : Char} {sign ds : List Char} (he : e = 'e' ∨ e = 'E')
    (hsign : sign = [] ∨ sign = ['+'] ∨ sign = ['-']) (hne : ds ≠ [])
    (hds : ∀ c ∈ ds, c.isDigit = true) (rest : List Char) :
    exponentReach (e :: (sign ++ ds) ++ rest) =
      1 + sign.length + reach Char.isDigit (ds ++ rest) := by
  have hletter : (e == 'e' || e == 'E') = true := by simpa using he
  -- the exponent counts only if a digit follows
  have hreach : reach Char.isDigit (ds ++ rest) ≠ 0 := by
    have hpos := List.length_pos_of_ne_nil hne
    rw [reach_append hds]
    omega
  rw [List.cons_append, List.append_assoc, exponentReach_cons, if_pos hletter]
  rcases hsign with rfl | rfl | rfl
  · -- the first digit is not taken for a sign
    obtain ⟨d, ds, rfl⟩ := List.exists_cons_of_ne_nil hne
    have hd : ¬(d = '+' ∨ d = '-') := by
      rintro (rfl | rfl) <;> exact absurd (hds _ List.mem_cons_self) (by decide)
    rw [List.nil_append, List.cons_append, signReach_cons, if_neg hd, exponentDigits_eq]
    exact if_neg hreach
  · change exponentDigits 2 (ds ++ rest) = 2 + _
    rw [exponentDigits_eq, if_neg hreach]
  · change exponentDigits 2 (ds ++ rest) = 2 + _
    rw [exponentDigits_eq, if_neg hreach]

/-- An exponent is nothing, or its letter, a sign or none, and all the digits behind them. -/
theorem exponentReach_cases (cs : List Char) : exponentReach cs = 0 ∨
    ∃ e sign ds, (e = 'e' ∨ e = 'E') ∧ (sign = [] ∨ sign = ['+'] ∨ sign = ['-']) ∧
      reach Char.isDigit ds ≠ 0 ∧ cs = e :: (sign ++ ds) ∧
        exponentReach cs = (sign.length + reach Char.isDigit ds) + 1 := by
  -- nothing, or a letter, perhaps a sign, and digits that must not be missing
  match cs with
  | [] => exact .inl rfl
  | e :: cs =>
    rw [exponentReach_cons]
    split
    next he =>
      have he : e = 'e' ∨ e = 'E' := by simpa using he
      match cs with
      | [] => exact .inl rfl
      | c :: cs =>
        rw [signReach_cons]
        split
        next hc =>
          rw [exponentDigits_eq]
          split
          next => exact .inl rfl
          next hreach =>
            refine .inr ⟨e, [c], cs, he, by simpa using hc, hreach, rfl, ?_⟩
            rw [List.length_singleton]
            omega
        next =>
          rw [exponentDigits_eq]
          split
          next => exact .inl rfl
          next hreach =>
            refine .inr ⟨e, [], c :: cs, he, .inl rfl, hreach, rfl, ?_⟩
            rw [List.length_nil]
            omega
    next => exact .inl rfl

/-- An exponent is taken with all its digits; a letter or a sign without a digit is left. -/
theorem greedy_exponent : Greedy exponentReach (maybe Pattern.exponent)
    fun c => c.isDigit = false ∧ ¬(c = 'e' ∨ c = 'E') := by
  have hdigits := greedy_reach Char.isDigit
  refine greedy_maybe ?_ ?_ ?_ ?_
  · intro cs
    refine (exponentReach_cases cs).imp_right ?_
    rintro ⟨e, sign, ds, he, hsign, hne, rfl, hreach⟩
    rw [hreach, List.take_succ_cons, List.take_append,
      List.take_of_length_le (Nat.le_add_right _ _), Nat.add_sub_cancel_left]
    refine mem_exponent.mpr ⟨e, sign, _, he, hsign, ?_, mem_kstar_single.mp (hdigits.mem ds), rfl⟩
    intro hnil
    rw [take_reach] at hnil
    exact hne (congrArg List.length hnil)
  · intro w hw rest
    obtain ⟨e, sign, ds, he, hsign, hne, hds, rfl⟩ := mem_exponent.mp hw
    have hle := hdigits.le ds (mem_kstar_single.mpr hds) rest
    rw [exponentReach_append he hsign hne hds, List.length_cons, List.length_append]
    omega
  · intro w hw c rest hc
    obtain ⟨e, sign, ds, he, hsign, hne, hds, rfl⟩ := mem_exponent.mp hw
    rw [exponentReach_append he hsign hne hds,
      hdigits.stops ds (mem_kstar_single.mpr hds) c rest hc.1, List.length_cons, List.length_append]
    omega
  · intro c rest hc
    rw [exponentReach_cons, if_neg (by simpa using hc.2)]

/-- A suffix is one letter. -/
theorem greedy_suffix (letters : List Char) :
    Greedy (suffixReach letters) (maybe (anyOf letters)) fun c => letters.contains c = false := by
  refine greedy_maybe ?_ ?_ ?_ ?_
  · intro cs
    cases cs with
    | nil => exact .inl rfl
    | cons c cs =>
      rw [suffixReach]
      split
      next hc => exact .inr ⟨c, hc, rfl⟩
      next => exact .inl rfl
  · rintro w ⟨c, hc, rfl⟩ rest
    exact Nat.le_of_eq (if_pos hc).symm
  · rintro w ⟨c, hc, rfl⟩ d rest _
    exact if_pos hc
  · intro c rest hc
    exact if_neg (by rw [hc]; exact Bool.false_ne_true)

/-- What begins a word of the language begins one that may be missing. -/
theorem begins_maybe {l : Language Char} {p : Char → Prop} (h : ∀ c w, c :: w ∈ l → p c) :
    ∀ c w, c :: w ∈ maybe l → p c := by
  intro c w hw
  rcases mem_maybe.mp hw with hnil | hw
  · exact absurd hnil (List.cons_ne_nil c w)
  · exact h c w hw

/-- One of a few characters begins with one of them. -/
theorem begins_anyOf {cs : List Char} {p : Char → Prop} (h : cs.Forall p) :
    ∀ c w, c :: w ∈ anyOf cs → p c := by
  rintro c w ⟨d, hd, heq⟩
  rw [(List.cons.inj heq).1]
  exact List.forall_iff_forall_mem.mp h d (by simpa using hd)

/-- **What follows the first digit of a decimal number** is taken as far as it goes. -/
theorem greedy_decimal : ∃ p, Greedy decimalReach Pattern.decimalTail p := by
  have hdigits :
      Greedy (reach isDigitOrMark) Pattern.digitOrMark∗ fun c => isDigitOrMark c = false := by
    rw [digitOrMark_eq]
    exact greedy_reach isDigitOrMark
  -- a point is no digit, the letter of an exponent is neither, and no suffix is any of these
  refine ⟨_, ((hdigits.andThen greedy_fraction (begins_maybe ?_)).andThen greedy_exponent
    (begins_maybe ?_)).andThen (greedy_suffix ['l', 'L', 'f', 'F', 'd', 'D'])
    (begins_maybe (begins_anyOf (by decide)))⟩
  · intro c w hw
    obtain ⟨d, ds, -, -, heq⟩ := mem_fraction.mp hw
    rw [(List.cons.inj heq).1]
    decide
  · intro c w hw
    obtain ⟨e, sign, ds, he, -, -, -, heq⟩ := mem_exponent.mp hw
    rw [(List.cons.inj heq).1]
    rcases he with rfl | rfl <;> decide

/-- Without a digit there is no hexadecimal number. -/
theorem hexDigits?_eq (cs : List Char) :
    hexDigits? cs = if reach isHexOrMark cs = 0 then none else
      some (reach isHexOrMark cs + suffixReach ['l', 'L'] (cs.drop (reach isHexOrMark cs)) +
        1) := by
  unfold hexDigits?
  split
  next h => rw [if_pos h]
  next n h =>
    rw [if_neg (by omega), h]
    rw [Nat.succ_eq_add_one]
    refine congrArg some ?_
    omega

/-- What follows the mark of a hexadecimal number, if the number has a digit. -/
theorem greedy_hex : ∃ p, Greedy
    (fun cs => reach isHexOrMark cs + suffixReach ['l', 'L'] (cs.drop (reach isHexOrMark cs)))
    ((single isHexOrMark)∗ * maybe (anyOf ['l', 'L'])) p :=
  ⟨_, (greedy_reach isHexOrMark).andThen (greedy_suffix ['l', 'L'])
    (begins_maybe (begins_anyOf (by decide)))⟩

/-- **What follows `0x`:** at least one digit, and a letter or none. -/
theorem mem_hexTail {w : List Char} : w ∈ Pattern.hexTail ↔
    ∃ ds suffix, ds ≠ [] ∧ (∀ c ∈ ds, isHexOrMark c = true) ∧ suffix ∈ maybe (anyOf ['l', 'L']) ∧
      w = ds ++ suffix := by
  rw [Pattern.hexTail, hexOrMark_eq, Language.mem_mul]
  constructor
  · rintro ⟨ds, hds, suffix, hsuffix, rfl⟩
    obtain ⟨hne, hdigits⟩ := mem_many_single.mp hds
    exact ⟨ds, suffix, hne, hdigits, hsuffix, rfl⟩
  · rintro ⟨ds, suffix, hne, hdigits, hsuffix, rfl⟩
    exact ⟨ds, mem_many_single.mpr ⟨hne, hdigits⟩, suffix, hsuffix, rfl⟩

/-- What is taken behind the mark of a hexadecimal number, counted with the mark. -/
theorem take_hexDigits {cs : List Char} {n : Nat} (h : hexDigits? cs = some n) :
    ∃ m, n = m + 1 ∧ cs.take m ∈ Pattern.hexTail := by
  rw [hexDigits?_eq] at h
  split at h
  next => exact nomatch h
  next hreach =>
    refine ⟨_, (Option.some.inj h).symm, ?_⟩
    rw [List.take_add, take_reach]
    refine mem_hexTail.mpr ⟨_, _, ?_, ?_, (greedy_suffix _).mem _, rfl⟩
    · intro hnil
      exact hreach (congrArg List.length hnil)
    · intro c hc
      exact List.mem_takeWhile_imp hc

/-- What follows `0x` is reached as far as the pattern goes, or further. -/
theorem hexDigits?_of_mem {w : List Char} (hw : w ∈ Pattern.hexTail) (rest : List Char) :
    ∃ n, hexDigits? (w ++ rest) = some n ∧ w.length < n := by
  obtain ⟨ds, suffix, hne, hdigits, hsuffix, rfl⟩ := mem_hexTail.mp hw
  obtain ⟨p, hgreedy⟩ := greedy_hex
  have hle :=
    hgreedy.le (ds ++ suffix) (Language.append_mem_mul (mem_kstar_single.mpr hdigits) hsuffix) rest
  have hreach : reach isHexOrMark (ds ++ suffix ++ rest) ≠ 0 := by
    have hpos := List.length_pos_of_ne_nil hne
    rw [List.append_assoc, reach_append hdigits]
    omega
  rw [hexDigits?_eq, if_neg hreach]
  exact ⟨_, rfl, Nat.lt_succ_of_le hle⟩

/-- A decimal number begins with a digit. -/
theorem cons_mem_decimal {c : Char} {w : List Char} :
    c :: w ∈ Pattern.decimal ↔ c.isDigit = true ∧ w ∈ Pattern.decimalTail := by
  rw [Pattern.decimal, digit_eq, cons_mem_single_mul]

/-- A hexadecimal number begins with `0x`. -/
theorem cons_mem_hexadecimal {c : Char} {w : List Char} : c :: w ∈ Pattern.hexadecimal ↔
    c = '0' ∧ ∃ x v, (x = 'x' ∨ x = 'X') ∧ v ∈ Pattern.hexTail ∧ w = x :: v := by
  rw [Pattern.hexadecimal, mem_exactly_mul, anyOf]
  constructor
  · rintro ⟨u, hu, heq⟩
    obtain ⟨x, v, hx, hv, rfl⟩ := mem_single_mul.mp hu
    obtain ⟨rfl, rfl⟩ := List.cons.inj heq
    exact ⟨rfl, x, v, by simpa using hx, hv, rfl⟩
  · rintro ⟨rfl, x, v, hx, hv, rfl⟩
    exact ⟨x :: v, mem_single_mul.mpr ⟨x, v, by simpa using hx, hv, rfl⟩, rfl⟩

/-- A hexadecimal number is reached if there are `0x` and a digit. -/
theorem hexReach?_eq_some_iff {c : Char} {cs : List Char} {n : Nat} : hexReach? c cs = some n ↔
    ∃ x ds, c = '0' ∧ (x = 'x' ∨ x = 'X') ∧ cs = x :: ds ∧ hexDigits? ds = some n := by
  cases cs with
  | nil => simp [hexReach?]
  | cons x ds =>
    rw [hexReach?_cons]
    split
    next h =>
      simp only [Bool.and_eq_true, Bool.or_eq_true, beq_iff_eq] at h
      constructor
      · exact fun hn => ⟨x, ds, h.1, h.2, rfl, hn⟩
      · rintro ⟨y, es, -, -, heq, hn⟩
        rwa [(List.cons.inj heq).2]
    next h =>
      simp only [Bool.and_eq_true, Bool.or_eq_true, beq_iff_eq] at h
      refine iff_of_false (Option.some_ne_none n).symm ?_
      rintro ⟨y, es, hc, hy, heq, -⟩
      rw [(List.cons.inj heq).1] at h
      exact h ⟨hc, hy⟩

/-- **What is taken of a number is a number.** -/
theorem take_number {c : Char} (hc : c.isDigit = true) (cs : List Char) :
    c :: cs.take (numberReach c cs) ∈ TokenKind.pattern .number := by
  unfold numberReach
  cases hhex : hexReach? c cs with
  | none =>
    obtain ⟨p, hgreedy⟩ := greedy_decimal
    exact .inl (cons_mem_decimal.mpr ⟨hc, hgreedy.mem cs⟩)
  | some n =>
    obtain ⟨x, ds, hzero, hx, rfl, hn⟩ := hexReach?_eq_some_iff.mp hhex
    obtain ⟨m, rfl, hm⟩ := take_hexDigits hn
    exact .inr (cons_mem_hexadecimal.mpr ⟨hzero, x, _, hx, hm, rfl⟩)

/-- **No longer number stands there.** -/
theorem le_numberReach {c : Char} {w : List Char} (hw : c :: w ∈ TokenKind.pattern .number)
    (rest : List Char) : w.length ≤ numberReach c (w ++ rest) := by
  unfold numberReach
  rcases hw with hw | hw
  · obtain ⟨-, hw⟩ := cons_mem_decimal.mp hw
    obtain ⟨p, hgreedy⟩ := greedy_decimal
    have hle := hgreedy.le w hw rest
    cases hhex : hexReach? c (w ++ rest) with
    | none => exact hle
    | some n =>
      -- in front of the mark of the other base, the number is a single zero
      obtain ⟨x, ds, -, hx, heq, -⟩ := hexReach?_eq_some_iff.mp hhex
      have hzero : decimalReach (x :: ds) = 0 := by rcases hx with rfl | rfl <;> rfl
      rw [heq, hzero] at hle
      exact hle.trans (Nat.zero_le n)
  · obtain ⟨rfl, x, v, hx, hv, rfl⟩ := cons_mem_hexadecimal.mp hw
    obtain ⟨n, hn, hlt⟩ := hexDigits?_of_mem hv rest
    have hhex : hexReach? '0' (x :: v ++ rest) = some n :=
      hexReach?_eq_some_iff.mpr ⟨x, v ++ rest, rfl, hx, rfl, hn⟩
    rw [hhex]
    exact hlt

/-- A fraction and an exponent that are begun but not completed are left alone. -/
example : numberReach '1' "0.e+x".toList = 1 := by decide

/-! ### Quotes -/

/-- **One item between quotes:** a plain character, or a backslash with any character of the same
line. -/
theorem mem_quotedItem {quote : Char} {w : List Char} : w ∈ Pattern.quotedItem quote ↔
    (∃ c, c ≠ quote ∧ c ≠ '\\' ∧ c ≠ '\n' ∧ w = [c]) ∨ ∃ c, c ≠ '\n' ∧ w = ['\\', c] := by
  rw [Pattern.quotedItem, Language.mem_add, noneOf, noneOf, mem_exactly_mul]
  simp only [mem_single]
  refine or_congr ?_ ?_
  · simp [and_assoc]
  · constructor
    · rintro ⟨v, ⟨c, hc, rfl⟩, rfl⟩
      exact ⟨c, by simpa using hc, rfl⟩
    · rintro ⟨c, hc, rfl⟩
      exact ⟨[c], ⟨c, by simpa using hc, rfl⟩, rfl⟩

/-- A literal between quotes begins and ends with the quote. -/
theorem cons_mem_quotation {quote c : Char} {w : List Char} : c :: w ∈ Pattern.quotation quote ↔
    c = quote ∧ ∃ v ∈ (Pattern.quotedItem quote)∗, w = v ++ [quote] := by
  rw [Pattern.quotation, anyOf, cons_mem_single_mul, Language.mem_mul]
  refine and_congr (by simp) ?_
  constructor
  · rintro ⟨v, hv, -, ⟨d, hd, rfl⟩, rfl⟩
    obtain rfl : d = quote := by simpa using hd
    exact ⟨v, hv, rfl⟩
  · rintro ⟨v, hv, rfl⟩
    exact ⟨v, hv, [quote], ⟨quote, by simp, rfl⟩, rfl⟩

/-- **A text between quotes is over at the first quote that is not escaped.** -/
theorem quotedReach?_of_mem {quote : Char} (hquote : quote ≠ '\\') {v : List Char}
    (hv : v ∈ (Pattern.quotedItem quote)∗) (rest : List Char) :
    quotedReach? quote (v ++ quote :: rest) = some (v.length + 1) := by
  rw [Language.mem_kstar] at hv
  obtain ⟨items, rfl, hitems⟩ := hv
  induction items with
  | nil =>
    rw [List.flatten_nil, List.nil_append, quotedReach?_cons, if_pos (beq_self_eq_true quote)]
    rfl
  | cons item items ih =>
    obtain ⟨hitem, hitems⟩ := List.forall_mem_cons.mp hitems
    have hlater := ih hitems
    rw [List.flatten_cons, List.append_assoc]
    rcases mem_quotedItem.mp hitem with ⟨c, hc, hback, hline, rfl⟩ | ⟨c, hline, rfl⟩
    · rw [List.singleton_append, quotedReach?_cons, if_neg (by simpa using hc),
        if_neg (by simpa using hline), if_neg (by simpa using hback), hlater]
      rfl
    · change quotedReach? quote ('\\' :: c :: (items.flatten ++ quote :: rest)) = _
      rw [quotedReach?_cons, if_neg (by simpa using hquote.symm), if_neg (by decide),
        if_pos (beq_self_eq_true _)]
      simp only
      rw [if_neg (by simpa using hline), hlater]
      rfl

/-- **What is taken behind a quote** ends with a quote. -/
theorem take_quoted {quote : Char} : ∀ (cs : List Char) (n : Nat), quotedReach? quote cs = some n →
    ∃ v ∈ (Pattern.quotedItem quote)∗, cs.take n = v ++ [quote]
  | [], _, h => nomatch h
  | c :: cs, n, h => by
    rw [quotedReach?_cons] at h
    split at h
    next hc =>
      obtain rfl := Option.some.inj h
      refine ⟨[], Language.nil_mem_kstar _, ?_⟩
      rw [eq_of_beq hc]
      rfl
    next hc =>
      split at h
      next => exact nomatch h
      next hline =>
        split at h
        next hback =>
          cases cs with
          | nil => exact nomatch h
          | cons d ds =>
            simp only at h
            split at h
            next => exact nomatch h
            next hd =>
              -- a backslash and the character behind it are one item
              obtain ⟨m, hm, rfl⟩ := Option.map_eq_some_iff.mp h
              obtain ⟨v, hv, htake⟩ := take_quoted ds m hm
              have hitem : [c, d] ∈ Pattern.quotedItem quote :=
                mem_quotedItem.mpr (.inr ⟨d, by simpa using hd, by rw [eq_of_beq hback]⟩)
              refine ⟨[c, d] ++ v, mem_kstar_cases.mpr (.inr (Language.append_mem_mul hitem hv)),
                ?_⟩
              rw [List.take_succ_cons, List.take_succ_cons, htake]
              rfl
        next hback =>
          obtain ⟨m, hm, rfl⟩ := Option.map_eq_some_iff.mp h
          obtain ⟨v, hv, htake⟩ := take_quoted cs m hm
          have hitem : [c] ∈ Pattern.quotedItem quote :=
            mem_quotedItem.mpr
              (.inl ⟨c, by simpa using hc, by simpa using hback, by simpa using hline, rfl⟩)
          refine ⟨[c] ++ v, mem_kstar_cases.mpr (.inr (Language.append_mem_mul hitem hv)), ?_⟩
          rw [List.take_succ_cons, htake]
          rfl
termination_by cs => cs.length

end Lexeme

end OperandOrder
