import Mathlib.Tactic.Common
import OperandOrder.Token.Lexer

/-!
# Lexemes, and what may follow them

The longest lexeme at a place depends on the text behind it. `Lexeme.Ends` describes text that
carries no word and no number on, and `Lexeme.next_of_ends` says that in front of such text a lexeme
is what it is in front of any other: names and literals are then cut off at the same character.

The parts of a number are composed of reaches, each of which starts where the one before it ends.
`Lexeme.Local` is the property of such a reach that is needed, and it is closed under composition
(`Lexeme.Local.andThen`).
-/

namespace OperandOrder

/-- Whether tokens of a kind are told apart by their text: names and literals. -/
def TokenKind.hasText (kind : TokenKind) : Bool := kind == .ident || kind.literalKind?.isSome

namespace Lexeme

/-- **Text that carries nothing on:** it does not begin like the inside of a word, nor with the sign
of an exponent, nor with a fraction. -/
structure Ends (rest : List Char) : Prop where
  head : ∀ c ∈ rest.head?, isWordChar c = false ∧ c ≠ '+' ∧ c ≠ '-'
  point : ∀ d ds, rest = '.' :: d :: ds → d.isDigit = false

/-- Nothing at all carries nothing on. -/
theorem ends_nil : Ends [] := ⟨nofun, nofun⟩

/-- A character that carries nothing on, whatever is behind it. -/
theorem ends_cons {c : Char} {rest : List Char}
    (h : (isWordChar c || c == '+' || c == '-' || c == '.') = false) : Ends (c :: rest) := by
  simp only [Bool.or_eq_false_iff, beq_eq_false_iff_ne] at h
  obtain ⟨⟨⟨hword, hplus⟩, hminus⟩, hpoint⟩ := h
  refine ⟨fun d hd => ?_, fun d ds heq => absurd (List.cons.inj heq).1 hpoint⟩
  obtain rfl : c = d := Option.some.inj hd
  exact ⟨hword, hplus, hminus⟩

theorem Ends.not_isWordChar {c : Char} {rest : List Char} (h : Ends (c :: rest)) :
    ¬isWordChar c = true := by
  rw [(h.head c rfl).1]
  exact Bool.false_ne_true

/-! ### Classes of characters -/

theorem isWordChar_of_isDigit {c : Char} (h : c.isDigit = true) : isWordChar c = true := by
  simp [isWordChar, h]

theorem isWordChar_of_isWordStart {c : Char} (h : isWordStart c = true) : isWordChar c = true := by
  simp [isWordChar, h]

/-- What carries a decimal number on would carry a word on, too. -/
theorem isWordChar_of_isDigitOrMark {c : Char} (h : isDigitOrMark c = true) :
    isWordChar c = true := by
  simp only [isDigitOrMark, Bool.or_eq_true, beq_iff_eq] at h
  rcases h with h | rfl
  · exact isWordChar_of_isDigit h
  · decide

/-- Letters, as two ranges. -/
theorem isAlpha_iff (c : Char) :
    c.isAlpha = true ↔ ('A' ≤ c ∧ c ≤ 'Z') ∨ ('a' ≤ c ∧ c ≤ 'z') := by
  change (decide ('A' ≤ c ∧ c ≤ 'Z') || decide ('a' ≤ c) && decide (c ≤ 'z')) = true ↔ _
  simp only [Bool.or_eq_true, Bool.and_eq_true, decide_eq_true_eq]

/-- The letters of a hexadecimal number are letters. -/
theorem isAlpha_of_hex {c : Char}
    (h : ('a' ≤ c ∧ c ≤ 'f') ∨ ('A' ≤ c ∧ c ≤ 'F')) : c.isAlpha = true := by
  rw [isAlpha_iff]
  rcases h with ⟨hlow, hhigh⟩ | ⟨hlow, hhigh⟩
  · exact .inr ⟨hlow, Char.le_trans hhigh (by decide)⟩
  · exact .inl ⟨hlow, Char.le_trans hhigh (by decide)⟩

/-- What carries a hexadecimal number on would carry a word on, too. -/
theorem isWordChar_of_isHexOrMark {c : Char} (h : isHexOrMark c = true) : isWordChar c = true := by
  simp only [isHexOrMark, Bool.or_eq_true, Bool.and_eq_true, decide_eq_true_eq, beq_iff_eq] at h
  rcases h with ((h | h) | h) | rfl
  · exact isWordChar_of_isDigit h
  · simp [isWordChar, isWordStart, isAlpha_of_hex (.inl h)]
  · simp [isWordChar, isWordStart, isAlpha_of_hex (.inr h)]
  · decide

theorem isDigit_iff (c : Char) : c.isDigit = true ↔ '0' ≤ c ∧ c ≤ '9' := by
  change (decide ('0' ≤ c) && decide (c ≤ '9')) = true ↔ _
  simp only [Bool.and_eq_true, decide_eq_true_eq]

/-- No letter is a digit: the digits all come before the letters. -/
theorem not_isDigit_of_isWordStart {c : Char} (h : isWordStart c = true) : c.isDigit = false := by
  by_contra hdigit
  rw [Bool.not_eq_false, isDigit_iff] at hdigit
  simp only [isWordStart, Bool.or_eq_true, isAlpha_iff, beq_iff_eq] at h
  rcases h with ((⟨hlow, -⟩ | ⟨hlow, -⟩) | rfl) | rfl
  · exact absurd (Char.le_trans hlow hdigit.2) (by decide)
  · exact absurd (Char.le_trans hlow hdigit.2) (by decide)
  · exact absurd hdigit (by decide)
  · exact absurd hdigit (by decide)

/-! ### Reaches that see what ends them -/

/-- **A local reach.** It stays within the text; and if it stays within `cs`, it is the same
whatever comes behind `cs`, as long as that carries nothing on. -/
structure Local (g : List Char → Nat) : Prop where
  le_length : ∀ cs, g cs ≤ cs.length
  agree : ∀ cs more rest, g (cs ++ more) ≤ cs.length → Ends rest → g (cs ++ rest) = g (cs ++ more)

/-- A reach, one character at a time. -/
theorem reach_cons (p : Char → Bool) (c : Char) (cs : List Char) :
    reach p (c :: cs) = if p c then reach p cs + 1 else 0 := by
  unfold reach
  rw [List.takeWhile_cons]
  split <;> rfl

/-- A reach goes through characters of the class. -/
theorem reach_append {p : Char → Bool} {w : List Char} (hw : ∀ c ∈ w, p c = true)
    (rest : List Char) : reach p (w ++ rest) = w.length + reach p rest := by
  rw [reach, List.takeWhile_append_of_pos hw, List.length_append, reach]

/-- No reach of word characters begins where a lexeme has ended. -/
theorem reach_of_ends {p : Char → Bool} (hp : ∀ c, p c = true → isWordChar c = true)
    {rest : List Char} (hrest : Ends rest) : reach p rest = 0 := by
  cases rest with
  | nil => rfl
  | cons c rest =>
    rw [reach_cons, if_neg]
    intro hc
    exact hrest.not_isWordChar (hp c hc)

/-- The characters of a class are a local reach, if they are word characters. -/
theorem local_reach {p : Char → Bool} (hp : ∀ c, p c = true → isWordChar c = true) :
    Local (reach p) := by
  refine ⟨fun cs => (List.takeWhile_sublist p).length_le, fun cs more rest h hrest => ?_⟩
  induction cs with
  | nil => exact (reach_of_ends hp hrest).trans (Nat.le_zero.mp h).symm
  | cons c cs ih =>
    rw [List.cons_append, reach_cons] at h
    rw [List.cons_append, List.cons_append, reach_cons, reach_cons]
    split at h
    next hc => rw [if_pos hc, if_pos hc, ih (Nat.le_of_succ_le_succ h)]
    next hc => rw [if_neg hc, if_neg hc]

theorem local_wordChars : Local (reach isWordChar) := local_reach fun _ h => h

theorem local_digits : Local (reach Char.isDigit) := local_reach fun _ => isWordChar_of_isDigit

theorem local_digitsOrMarks : Local (reach isDigitOrMark) :=
  local_reach fun _ => isWordChar_of_isDigitOrMark

theorem local_hexDigits : Local (reach isHexOrMark) :=
  local_reach fun _ => isWordChar_of_isHexOrMark

/-- **One reach after another.** -/
theorem Local.andThen {g h : List Char → Nat} (hg : Local g) (hh : Local h) :
    Local fun cs => g cs + h (cs.drop (g cs)) := by
  refine ⟨fun cs => ?_, fun cs more rest hle hrest => ?_⟩
  · have hfirst := hg.le_length cs
    have hsecond := hh.le_length (cs.drop (g cs))
    rw [List.length_drop] at hsecond
    omega
  -- the first reach stays within `cs`, so the second begins at the same place in both texts
  have hfirst : g (cs ++ more) ≤ cs.length := Nat.le_trans (Nat.le_add_right _ _) hle
  have hdrop : ∀ us : List Char,
      (cs ++ us).drop (g (cs ++ more)) = cs.drop (g (cs ++ more)) ++ us :=
    fun us => List.drop_append_of_le_length hfirst
  have hsecond : h (cs.drop (g (cs ++ more)) ++ more) ≤ (cs.drop (g (cs ++ more))).length := by
    rw [← hdrop, List.length_drop]
    exact Nat.le_sub_of_add_le' hle
  simp only [hg.agree cs more rest hfirst hrest]
  rw [hdrop, hdrop, hh.agree _ more rest hsecond hrest]

/-! ### Numbers -/

/-- What a point takes with the digits behind it. -/
def pointReach : List Char → Nat
  | [] => 0
  | d :: ds => if d.isDigit then 2 + reach isDigitOrMark ds else 0

/-- A fraction begins with a point and goes on like one. -/
theorem fractionReach_cons (c : Char) (cs : List Char) :
    fractionReach (c :: cs) = if c = '.' then pointReach cs else 0 := by
  by_cases hc : c = '.'
  · subst hc
    cases cs <;> rfl
  · rw [if_neg hc]
    unfold fractionReach
    split
    next heq => exact absurd (List.cons.inj heq).1 hc
    next => rfl

/-- Where a lexeme has ended, a point is not followed by a digit. -/
theorem pointReach_of_ends {rest : List Char} (hrest : Ends rest) : pointReach rest = 0 := by
  cases rest with
  | nil => rfl
  | cons d ds =>
    exact if_neg fun hd => hrest.not_isWordChar (isWordChar_of_isDigit hd)

/-- A fraction takes characters that are there. -/
theorem fractionReach_le_length (cs : List Char) : fractionReach cs ≤ cs.length := by
  cases cs with
  | nil => exact Nat.zero_le _
  | cons c cs =>
    rw [fractionReach_cons]
    split
    · cases cs with
      | nil => exact Nat.zero_le _
      | cons d ds =>
        have hdigits := local_digitsOrMarks.le_length ds
        rw [pointReach]
        split
        · simp only [List.length_cons]
          omega
        · exact Nat.zero_le _
    · exact Nat.zero_le _

/-- **A fraction is a local reach.** Only the text `.` on its own is special: whether a digit
follows is then decided by what is behind the text. -/
theorem local_fractionReach : Local fractionReach := by
  refine ⟨fractionReach_le_length, fun cs more rest h hrest => ?_⟩
  match cs with
  | [] =>
    -- a point that carries nothing on has no digit behind it
    have hnone : fractionReach rest = 0 := by
      cases rest with
      | nil => rfl
      | cons c rest =>
        rw [fractionReach_cons]
        split
        next hc =>
          subst hc
          cases rest with
          | nil => rfl
          | cons d ds => exact if_neg (by rw [hrest.point d ds rfl]; exact Bool.false_ne_true)
        next => rfl
    exact hnone.trans (Nat.le_zero.mp h).symm
  | [c] =>
    rw [List.singleton_append, fractionReach_cons] at h
    rw [List.singleton_append, List.singleton_append, fractionReach_cons, fractionReach_cons,
      pointReach_of_ends hrest]
    split at h
    next hc =>
      -- a point alone takes nothing, and with a digit behind it more than one character
      rw [if_pos hc, if_pos hc]
      cases more with
      | nil => rfl
      | cons d ds =>
        rw [pointReach] at h ⊢
        split at h
        next => simp only [List.length_singleton] at h; omega
        next hd => rw [if_neg hd]
    next hc => rw [if_neg hc, if_neg hc]
  | c :: d :: cs =>
    have hdigits := local_digitsOrMarks.agree cs more rest
    simp only [List.cons_append, fractionReach_cons, pointReach, List.length_cons] at h ⊢
    split
    next hc =>
      split
      next hd =>
        rw [if_pos hc, if_pos hd] at h
        rw [hdigits (by omega) hrest]
      next => rfl
    next => rfl

/-- An exponent that stays within a text has its digits there. -/
theorem reach_le_of_exponentDigits {lead : Nat} {cs : List Char} {n : Nat}
    (h : exponentDigits lead cs ≤ lead + n) : reach Char.isDigit cs ≤ n := by
  unfold exponentDigits at h
  split at h <;> omega

/-- An exponent that does not go beyond what leads to its digits is none. -/
theorem exponentDigits_eq_zero {lead : Nat} {cs : List Char} (h : exponentDigits lead cs ≤ lead) :
    exponentDigits lead cs = 0 := by
  unfold exponentDigits at h ⊢
  split at h
  next => rfl
  next => omega

/-- The digits of an exponent are read the same whatever comes behind them, where the lead has been
read already. -/
theorem local_exponentDigits {lead : Nat} {cs more rest : List Char}
    (h : exponentDigits lead (cs ++ more) ≤ lead + cs.length) (hrest : Ends rest) :
    exponentDigits lead (cs ++ rest) = exponentDigits lead (cs ++ more) := by
  have hdigits := local_digits.agree cs more rest (reach_le_of_exponentDigits h) hrest
  unfold exponentDigits
  rw [hdigits]

/-- What the letter of an exponent takes with what is behind it. -/
def signReach : List Char → Nat
  | '+' :: ds => exponentDigits 2 ds
  | '-' :: ds => exponentDigits 2 ds
  | ds => exponentDigits 1 ds

/-- An exponent begins with its letter and goes on with a sign or a digit. -/
theorem exponentReach_cons (e : Char) (cs : List Char) :
    exponentReach (e :: cs) = if e == 'e' || e == 'E' then signReach cs else 0 := rfl

/-- The sign of an exponent is told by one character. -/
theorem signReach_cons (c : Char) (cs : List Char) :
    signReach (c :: cs) =
      if c = '+' ∨ c = '-' then exponentDigits 2 cs else exponentDigits 1 (c :: cs) := by
  unfold signReach
  split
  next heq =>
    obtain ⟨rfl, rfl⟩ := List.cons.inj heq
    rfl
  next heq =>
    obtain ⟨rfl, rfl⟩ := List.cons.inj heq
    rfl
  next hplus hminus =>
    rw [if_neg]
    rintro (rfl | rfl)
    · exact hplus cs rfl
    · exact hminus cs rfl

/-- The letter is not taken without a digit, with a sign or without. -/
theorem signReach_eq_zero {cs : List Char} (h : signReach cs ≤ 1) : signReach cs = 0 := by
  cases cs with
  | nil => rfl
  | cons c cs =>
    rw [signReach_cons] at h ⊢
    split at h
    next hsign =>
      rw [if_pos hsign]
      exact exponentDigits_eq_zero (Nat.le_succ_of_le h)
    next hsign =>
      rw [if_neg hsign]
      exact exponentDigits_eq_zero h

/-- Behind its letter, an exponent is read the same whatever comes behind it. With nothing behind
the letter, a sign could follow; that is why signs are excluded from `Ends`. -/
theorem local_signReach {cs more rest : List Char} (h : signReach (cs ++ more) ≤ 1 + cs.length)
    (hrest : Ends rest) : signReach (cs ++ rest) = signReach (cs ++ more) := by
  -- with nothing read yet, what follows begins with no sign and no digit
  cases cs with
  | nil =>
    have hnone : signReach rest = 0 := by
      have hdigits : exponentDigits 1 rest = 0 := by
        rw [exponentDigits,
          reach_of_ends (p := Char.isDigit) (fun _ => isWordChar_of_isDigit) hrest]
      cases rest with
      | nil => exact hdigits
      | cons c rest =>
        obtain ⟨-, hplus, hminus⟩ := hrest.head c rfl
        rw [signReach_cons, if_neg (not_or.mpr ⟨hplus, hminus⟩), hdigits]
    exact hnone.trans (signReach_eq_zero h).symm
  | cons c cs =>
    rw [List.cons_append, signReach_cons, List.length_cons] at h
    rw [List.cons_append, List.cons_append, signReach_cons, signReach_cons]
    -- the sign is among what has been read, so only the digits reach into what follows
    split at h
    next hsign =>
      rw [if_pos hsign, if_pos hsign]
      exact local_exponentDigits (by omega) hrest
    next hsign =>
      rw [if_neg hsign, if_neg hsign, ← List.cons_append, ← List.cons_append]
      exact local_exponentDigits h hrest

/-- The digits of an exponent are there. -/
theorem exponentDigits_le (lead : Nat) (cs : List Char) :
    exponentDigits lead cs ≤ lead + cs.length := by
  have hdigits := local_digits.le_length cs
  unfold exponentDigits
  split <;> omega

/-- The sign and the digits of an exponent are there. -/
theorem signReach_le (cs : List Char) : signReach cs ≤ 1 + cs.length := by
  cases cs with
  | nil => exact exponentDigits_le 1 []
  | cons c cs =>
    rw [signReach_cons, List.length_cons]
    split
    · have hdigits := exponentDigits_le 2 cs
      omega
    · exact exponentDigits_le 1 (c :: cs)

/-- An exponent takes characters that are there. -/
theorem exponentReach_le_length (cs : List Char) : exponentReach cs ≤ cs.length := by
  cases cs with
  | nil => exact Nat.zero_le _
  | cons e cs =>
    rw [exponentReach_cons, List.length_cons, Nat.add_comm]
    split
    · exact signReach_le cs
    · exact Nat.zero_le _

/-- **An exponent is a local reach.** -/
theorem local_exponentReach : Local exponentReach := by
  refine ⟨exponentReach_le_length, fun cs more rest h hrest => ?_⟩
  cases cs with
  | nil =>
    have hnone : exponentReach rest = 0 := by
      cases rest with
      | nil => rfl
      | cons c rest =>
        rw [exponentReach_cons, if_neg]
        intro hc
        simp only [Bool.or_eq_true, beq_iff_eq] at hc
        -- the letter of an exponent goes on a word, so it cannot begin what follows
        rcases hc with rfl | rfl <;> exact hrest.not_isWordChar (by decide)
    exact hnone.trans (Nat.le_zero.mp h).symm
  | cons e cs =>
    simp only [List.cons_append, exponentReach_cons, List.length_cons] at h ⊢
    split
    next he =>
      rw [if_pos he] at h
      exact local_signReach (by omega) hrest
    next => rfl

/-- **The letter that closes a number is a local reach,** since such letters would carry a word on.
-/
theorem local_suffixReach {letters : List Char} (hletters : letters.all isWordChar = true) :
    Local (suffixReach letters) := by
  refine ⟨fun cs => ?_, fun cs more rest h hrest => ?_⟩
  · cases cs with
    | nil => exact Nat.zero_le _
    | cons c cs =>
      rw [suffixReach]
      split
      · simp
      · exact Nat.zero_le _
  -- the suffix is one letter: read already, or part of a word that does not go on
  cases cs with
  | nil =>
    have hnone : suffixReach letters rest = 0 := by
      cases rest with
      | nil => rfl
      | cons c rest =>
        refine if_neg fun hc => ?_
        exact hrest.not_isWordChar (List.all_eq_true.mp hletters c (by simpa using hc))
    exact hnone.trans (Nat.le_zero.mp h).symm
  | cons c cs => rfl

/-- **A decimal number is a local reach:** its four parts are, one after another. -/
theorem local_decimalReach : Local decimalReach := by
  have hsuffix : Local (suffixReach ['l', 'L', 'f', 'F', 'd', 'D']) := local_suffixReach rfl
  have hwhole := local_digitsOrMarks.andThen local_fractionReach
  exact (hwhole.andThen local_exponentReach).andThen hsuffix

/-- What the mark of a hexadecimal number takes with the digits behind it. -/
def hexDigits? (cs : List Char) : Option Nat :=
  match reach isHexOrMark cs with
  | 0 => none
  | n + 1 => some (n + 2 + suffixReach ['l', 'L'] (cs.drop (n + 1)))

/-- A hexadecimal number is told by its first two characters. -/
theorem hexReach?_cons (first x : Char) (cs : List Char) :
    hexReach? first (x :: cs) =
      if first == '0' && (x == 'x' || x == 'X') then hexDigits? cs else none := rfl

/-- No hexadecimal number is made of a zero alone. -/
theorem hexReach?_of_ends (first : Char) {rest : List Char} (hrest : Ends rest) :
    hexReach? first rest = none := by
  cases rest with
  | nil => rfl
  | cons x rest =>
    rw [hexReach?_cons, if_neg]
    intro hx
    simp only [Bool.and_eq_true, Bool.or_eq_true, beq_iff_eq] at hx
    rcases hx.2 with rfl | rfl <;> exact hrest.not_isWordChar (by decide)

/-- The digits of a hexadecimal number are read the same whatever comes behind them. The text may
have no digit, and then there is no such number. -/
theorem local_hexDigits? {cs more rest : List Char}
    (h : ∀ n, hexDigits? (cs ++ more) = some n → n ≤ cs.length + 1) (hrest : Ends rest) :
    hexDigits? (cs ++ rest) = hexDigits? (cs ++ more) := by
  -- the digits end within what has been read, so they do with anything that follows
  have hreach : reach isHexOrMark (cs ++ more) ≤ cs.length := by
    unfold hexDigits? at h
    split at h
    next hn => omega
    next n hn =>
      have hle := h _ rfl
      omega
  have hdigits := local_hexDigits.agree cs more rest hreach hrest
  have hsuffix : Local (suffixReach ['l', 'L']) := local_suffixReach rfl
  unfold hexDigits? at h ⊢
  rw [hdigits]
  cases hn : reach isHexOrMark (cs ++ more) with
  | zero => rfl
  | succ n =>
    rw [hn] at h hreach
    have hle := h _ rfl
    -- and what is behind them still has all that follows
    have hdrop : ∀ us : List Char, (cs ++ us).drop (n + 1) = cs.drop (n + 1) ++ us :=
      fun us => List.drop_append_of_le_length hreach
    simp only [hdrop] at hle ⊢
    rw [hsuffix.agree _ more rest (by rw [List.length_drop]; omega) hrest]

/-- The digits of a hexadecimal number are there. -/
theorem hexDigits?_le {cs : List Char} {n : Nat} (h : hexDigits? cs = some n) :
    n ≤ cs.length + 1 := by
  have hsuffix : Local (suffixReach ['l', 'L']) := local_suffixReach rfl
  have hdigits := local_hexDigits.le_length cs
  unfold hexDigits? at h
  split at h
  next => exact nomatch h
  next n hn =>
    obtain rfl := Option.some.inj h
    have hlast := hsuffix.le_length (cs.drop (n + 1))
    rw [List.length_drop] at hlast
    omega

/-- A number takes characters that are there. -/
theorem numberReach_le_length (first : Char) (cs : List Char) :
    numberReach first cs ≤ cs.length := by
  unfold numberReach
  cases hhex : hexReach? first cs with
  | none => exact local_decimalReach.le_length cs
  | some n =>
    cases cs with
    | nil => exact nomatch hhex
    | cons x cs =>
      rw [hexReach?_cons] at hhex
      split at hhex
      · exact hexDigits?_le hhex
      · exact nomatch hhex

/-- **Numbers are local,** in either base. -/
theorem local_numberReach (first : Char) : Local (numberReach first) := by
  refine ⟨numberReach_le_length first, fun cs more rest h hrest => ?_⟩
  have hdecimal := local_decimalReach.agree cs more rest
  unfold numberReach at h ⊢
  cases cs with
  | nil =>
    have hnone : decimalReach rest = 0 := local_decimalReach.agree [] [] rest (Nat.le_refl 0) hrest
    rw [List.nil_append, List.nil_append, hexReach?_of_ends first hrest, Option.getD_none, hnone]
    exact (Nat.le_zero.mp h).symm
  | cons x cs =>
    rw [List.cons_append, hexReach?_cons] at h
    rw [List.cons_append, List.cons_append, hexReach?_cons, hexReach?_cons]
    split at h
    next hx =>
      -- the mark is there; without a digit behind it the number is a decimal one after all
      rw [if_pos hx, if_pos hx]
      have hsame : hexDigits? (cs ++ rest) = hexDigits? (cs ++ more) := by
        refine local_hexDigits? (fun n hn => ?_) hrest
        rwa [hn, Option.getD_some] at h
      rw [hsame]
      cases hhex : hexDigits? (cs ++ more) with
      | none =>
        rw [hhex] at h
        exact hdecimal h hrest
      | some n => rfl
    next hx =>
      rw [if_neg hx, if_neg hx]
      exact hdecimal h hrest

/-! ### Quotes -/

/-- A literal between quotes, one character at a time. -/
theorem quotedReach?_cons (quote c : Char) (cs : List Char) :
    quotedReach? quote (c :: cs) =
      if c == quote then some 1
      else if c == '\n' then none
      else if c == '\\' then
        match cs with
        | [] => none
        | d :: ds => if d == '\n' then none else (quotedReach? quote ds).map (· + 2)
      else (quotedReach? quote cs).map (· + 1) :=
  quotedReach?.eq_def quote (c :: cs)

/-- A literal between quotes has at least its closing quote. -/
theorem quotedReach?_ne_zero (quote : Char) (cs : List Char) : quotedReach? quote cs ≠ some 0 := by
  cases cs with
  | nil => exact nofun
  | cons c cs =>
    rw [quotedReach?_cons]
    split
    · simp
    · split
      · simp
      · split
        · split
          · simp
          · split <;> simp
        · simp

/-- A literal between quotes is closed by its last character, whatever is behind it. -/
theorem quotedReach?_append {quote : Char} {more rest : List Char} : ∀ cs : List Char,
    quotedReach? quote (cs ++ more) = some cs.length →
      quotedReach? quote (cs ++ rest) = some cs.length
  | [], h => absurd h (quotedReach?_ne_zero quote more)
  | c :: cs, h => by
    rw [List.cons_append, quotedReach?_cons] at h ⊢
    split
    next hc =>
      rw [if_pos hc] at h
      exact h
    next hc =>
      rw [if_neg hc] at h
      split
      next hline =>
        rw [if_pos hline] at h
        exact h
      next hline =>
        rw [if_neg hline] at h
        split
        next hback =>
          rw [if_pos hback] at h
          cases cs with
          | nil =>
            -- a backslash takes one more character with it, so it is not the last one
            exfalso
            cases more with
            | nil => exact nomatch h
            | cons d ds =>
              simp only [List.nil_append, List.length_singleton] at h
              split at h
              · exact nomatch h
              · obtain ⟨n, -, hsum⟩ := Option.map_eq_some_iff.mp h
                omega
          | cons d ds =>
            simp only [List.cons_append, List.length_cons] at h ⊢
            split
            next hd =>
              rw [if_pos hd] at h
              exact h
            next hd =>
              rw [if_neg hd] at h
              -- the escaped character is passed over together with its backslash
              obtain ⟨n, hn, hsum⟩ := Option.map_eq_some_iff.mp h
              obtain rfl : n = ds.length := by omega
              rw [quotedReach?_append ds hn]
              rfl
        next hback =>
          rw [if_neg hback] at h
          obtain ⟨n, hn, hsum⟩ := Option.map_eq_some_iff.mp h
          obtain rfl : n = cs.length := by simpa using hsum
          rw [quotedReach?_append cs hn]
          rfl
termination_by cs => cs.length

/-- A literal between quotes takes characters that are there. -/
theorem quotedReach?_le_length {quote : Char} : ∀ (cs : List Char) (n : Nat),
    quotedReach? quote cs = some n → n ≤ cs.length
  | [], _, h => nomatch h
  | c :: cs, n, h => by
    rw [quotedReach?_cons] at h
    split at h
    · obtain rfl := Option.some.inj h
      simp
    · split at h
      · exact nomatch h
      · split at h
        · -- an escape takes the character behind it too
          cases cs with
          | nil => exact nomatch h
          | cons d ds =>
            simp only at h
            split at h
            · exact nomatch h
            · obtain ⟨m, hm, rfl⟩ := Option.map_eq_some_iff.mp h
              have hle := quotedReach?_le_length ds m hm
              simp only [List.length_cons]
              omega
        · obtain ⟨m, hm, rfl⟩ := Option.map_eq_some_iff.mp h
          have hle := quotedReach?_le_length cs m hm
          simp only [List.length_cons]
          omega
termination_by cs => cs.length

/-! ### The next lexeme -/

/-- A word character is no blank. -/
theorem not_isBlank_of_isWordChar {c : Char} (h : isWordChar c = true) : isBlank c = false := by
  by_contra hblank
  simp only [Bool.not_eq_false, isBlank, Bool.or_eq_true, beq_iff_eq] at hblank
  rcases hblank with (((rfl | rfl) | rfl) | rfl) | rfl <;> exact absurd h (by decide)

/-- A word is read up to the first character that is not one of a word. -/
theorem next_of_isWordStart {c : Char} (hc : isWordStart c = true) (cs : List Char) :
    next c cs = (.token (wordKind (c :: cs.take (reach isWordChar cs))), reach isWordChar cs) := by
  have hblank : ¬isBlank c = true := by
    rw [not_isBlank_of_isWordChar (isWordChar_of_isWordStart hc)]
    exact Bool.false_ne_true
  unfold next
  rw [if_neg hblank, if_pos hc]

/-- A number is read where a digit stands. -/
theorem next_of_isDigit {c : Char} (hc : c.isDigit = true) (cs : List Char) :
    next c cs = (.token .number, numberReach c cs) := by
  have hword : ¬isWordStart c = true := by
    intro hword
    rw [not_isDigit_of_isWordStart hword] at hc
    exact Bool.false_ne_true hc
  have hblank : ¬isBlank c = true := by
    rw [not_isBlank_of_isWordChar (isWordChar_of_isDigit hc)]
    exact Bool.false_ne_true
  unfold next
  rw [if_neg hblank, if_neg hword, if_pos hc]

/-- A sign is never told apart by its text. -/
theorem hasText_of_sign? {c : Char} {cs : List Char} {kind : TokenKind} {n : Nat}
    (h : sign? c cs = some (kind, n)) : kind.hasText = false := by
  unfold sign? at h
  split at h <;> cases h <;> rfl

/-- A literal that is read between quotes has been closed. -/
theorem quotedReach?_of_quoted {k kind : TokenKind} {quote : Char} {cs : List Char} {n : Nat}
    (h : quoted k quote cs = (.token kind, n)) : quotedReach? quote cs = some n ∧ kind = k := by
  unfold quoted at h
  split at h
  next m hm =>
    obtain ⟨hk, rfl⟩ := Prod.mk.inj h
    exact ⟨hm, (token.inj hk).symm⟩
  next => exact nomatch (Prod.mk.inj h).1

/-- **How a name or a literal is read:** as a word, a number, or between quotes. -/
theorem next_cases {c : Char} {cs : List Char} {kind : TokenKind} {n : Nat}
    (hkind : kind.hasText = true) (h : next c cs = (.token kind, n)) :
    (isWordStart c = true ∧ n = reach isWordChar cs ∧ kind = wordKind (c :: cs.take n)) ∨
      (c.isDigit = true ∧ n = numberReach c cs ∧ kind = .number) ∨
        (c = '\x22' ∧ quotedReach? c cs = some n ∧ kind = .str) ∨
          (c = '\x27' ∧ quotedReach? c cs = some n ∧ kind = .char) := by
  unfold next at h
  split at h
  · exact nomatch (Prod.mk.inj h).1
  split at h
  next hword =>
    obtain ⟨hk, rfl⟩ := Prod.mk.inj h
    exact .inl ⟨hword, rfl, (token.inj hk).symm⟩
  split at h
  next hdigit =>
    obtain ⟨hk, rfl⟩ := Prod.mk.inj h
    exact .inr (.inl ⟨hdigit, rfl, (token.inj hk).symm⟩)
  split at h
  next hquote => exact .inr (.inr (.inl ⟨eq_of_beq hquote, quotedReach?_of_quoted h⟩))
  split at h
  next hquote => exact .inr (.inr (.inr ⟨eq_of_beq hquote, quotedReach?_of_quoted h⟩))
  split at h
  next k m hsign =>
    -- a sign is never told apart by its text
    obtain rfl : k = kind := token.inj (Prod.mk.inj h).1
    rw [hasText_of_sign? hsign] at hkind
    exact absurd hkind Bool.false_ne_true
  next => exact nomatch (Prod.mk.inj h).1

/-- A name or a literal takes characters that are there. -/
theorem next_le_length {c : Char} {cs : List Char} {kind : TokenKind} {n : Nat}
    (hkind : kind.hasText = true) (h : next c cs = (.token kind, n)) : n ≤ cs.length := by
  rcases next_cases hkind h with ⟨-, rfl, -⟩ | ⟨-, rfl, -⟩ | ⟨-, hn, -⟩ | ⟨-, hn, -⟩
  · exact local_wordChars.le_length cs
  · exact numberReach_le_length c cs
  · exact quotedReach?_le_length cs n hn
  · exact quotedReach?_le_length cs n hn

/-- **Names and literals end where they end,** whatever is behind them. -/
theorem next_of_ends {c : Char} {cs more rest : List Char} {kind : TokenKind}
    (hkind : kind.hasText = true) (h : next c (cs ++ more) = (.token kind, cs.length))
    (hrest : Ends rest) : next c (cs ++ rest) = (.token kind, cs.length) := by
  rcases next_cases hkind h with ⟨hc, hn, hk⟩ | ⟨hc, hn, rfl⟩ | ⟨rfl, hn, rfl⟩ | ⟨rfl, hn, rfl⟩
  · -- a quote closes a literal, whatever follows; words and numbers need an end
    have hsame := local_wordChars.agree cs more rest (Nat.le_of_eq hn.symm) hrest
    rw [next_of_isWordStart hc, hsame, ← hn, List.take_left, hk, List.take_left]
  · have hsame := (local_numberReach c).agree cs more rest (Nat.le_of_eq hn.symm) hrest
    rw [next_of_isDigit hc, hsame, ← hn]
  · change quoted .str _ _ = _
    rw [quoted, quotedReach?_append cs hn]
  · change quoted .char _ _ = _
    rw [quoted, quotedReach?_append cs hn]

/-- **The kind of token that a text is** on its own. -/
def kindOf? (text : String) : Option TokenKind :=
  match text.toList with
  | [] => none
  | c :: cs =>
    match next c cs with
    | (.token kind, n) => if n = cs.length then some kind else none
    | _ => none

/-- A text is of a kind if it is read as one lexeme of that kind, to its end. -/
theorem kindOf?_eq_some_iff {text : String} {kind : TokenKind} :
    kindOf? text = some kind ↔
      ∃ c cs, text.toList = c :: cs ∧ next c cs = (.token kind, cs.length) := by
  unfold kindOf?
  cases text.toList with
  | nil => simp
  | cons c cs =>
    cases hnext : next c cs with
    | mk found n =>
      cases found <;> simp [hnext]
      constructor
      · rintro ⟨hn, hk⟩
        exact ⟨hk, hn⟩
      · rintro ⟨hk, hn⟩
        exact ⟨hn, hk⟩

/-- What is read as a name or a literal is one on its own. -/
theorem kindOf?_of_next {c : Char} {cs : List Char} {kind : TokenKind} {n : Nat}
    (hkind : kind.hasText = true) (h : next c cs = (.token kind, n)) :
    kindOf? (String.ofList (c :: cs.take n)) = some kind := by
  have hlength : (cs.take n).length = n := List.length_take_of_le (next_le_length hkind h)
  have hsplit : next c (cs.take n ++ cs.drop n) = (.token kind, (cs.take n).length) := by
    rw [List.take_append_drop, hlength, h]
  -- nothing at all ends a lexeme, too
  have halone := next_of_ends hkind hsplit ends_nil
  rw [List.append_nil] at halone
  exact kindOf?_eq_some_iff.mpr ⟨c, cs.take n, String.toList_ofList, halone⟩

end Lexeme

end OperandOrder
