import OperandOrder.Proofs.Token.Patterns

/-!
# Tokens are longest matches

What is to be read at a place is said by the patterns alone (`Lexeme.Found`): the longest text of
any kind, as a token of that kind, where a keyword wins over a name; and where no text of any kind
stands, a blank, a quote that is never closed, or a character that begins no token. `Tokenized`
carries this over to a whole text, piece by piece. `lex_longest` says that this is what `lex` reads,
and puts it in terms of the places of tokens and errors as well.

The argument goes through one fact about a single text of a kind (`Lexeme.next_of_mem`): where it
stands, a token is read that is not shorter, and if it is not longer either, it is of that kind, or
a keyword that is spelled like a name. So what is read is the longest match, and nothing is missed
where no token is read. That no other reading would do follows too, since a longest match is read as
soon as it stands there.
-/

namespace OperandOrder

open Lexeme

/-- **The longest match** in front of `rest`: no longer text there is of any kind, and of two kinds
of the same text a keyword wins over a name. -/
structure LongestMatch (kind : TokenKind) (w rest : List Char) : Prop where
  mem : w ∈ kind.pattern
  longest : ∀ k : TokenKind, ∀ v ∈ k.pattern, v <+: w ++ rest → v.length ≤ w.length
  preferred : ∀ k : TokenKind, w ∈ k.pattern → k = kind ∨ k = .ident ∧ kind.isKeyword = true

/-- No text at the front is of any kind. -/
def NoMatch (cs : List Char) : Prop := ∀ k : TokenKind, ∀ v ∈ k.pattern, ¬v <+: cs

namespace Lexeme

/-- The characters that open a literal between quotes. -/
def isQuote (c : Char) : Bool := c == '\x22' || c == '\x27'

/-- **What is to be found** in front of `rest`. -/
inductive Found : Lexeme → List Char → List Char → Prop
  | blank {c : Char} {rest : List Char} (hc : isBlank c = true) : Found .blank [c] rest
  | token {kind : TokenKind} {w rest : List Char} (h : LongestMatch kind w rest) :
    Found (.token kind) w rest
  | invalid {c : Char} {rest : List Char} (hblank : isBlank c = false) (hquote : isQuote c = false)
    (h : NoMatch (c :: rest)) : Found .invalid [c] rest
  | unterminated {c : Char} {rest : List Char} (hquote : isQuote c = true)
    (h : NoMatch (c :: rest)) : Found .unterminated [c] rest

/-! ### Signs -/

/-- The pattern of a sign is its text. -/
theorem pattern_of_symbol? {kind : TokenKind} {s : String} (h : kind.symbol? = some s) :
    kind.pattern = exactly s := by
  cases kind <;> cases h <;> rfl

/-- A sign is read as a token: its first character begins nothing else. -/
theorem next_of_sign? {c : Char} {cs : List Char} {kind : TokenKind} {n : Nat}
    (h : sign? c cs = some (kind, n)) : next c cs = (.token kind, n) := by
  have hc : isBlank c = false ∧ isWordStart c = false ∧ c.isDigit = false ∧ (c == '\x22') = false ∧
      (c == '\x27') = false := by
    unfold sign? at h
    split at h <;> first | decide | cases h
  obtain ⟨hblank, hword, hdigit, hdouble, hsingle⟩ := hc
  unfold next
  simp only [hblank, hword, hdigit, hdouble, hsingle, h, Bool.false_eq_true, if_false]

/-- What is read of a sign that stands alone. -/
theorem sign?_of_symbol? {kind : TokenKind} {s : String} {c : Char} {w : List Char}
    (h : kind.symbol? = some s) (hs : s.toList = c :: w) : sign? c w = some (kind, w.length) := by
  obtain ⟨d, v, heq, hnext⟩ := kindOf?_eq_some_iff.mp (kindOf?_of_symbol? h)
  obtain ⟨rfl, rfl⟩ := List.cons.inj (hs.symm.trans heq)
  refine sign?_of_next ?_ hnext
  by_contra hkind
  rw [symbol?_of_hasText (by simpa using hkind)] at h
  exact nomatch h

/-- The first character of a sign is a sign, whatever is behind it. -/
theorem sign?_isSome_of_nil {c : Char} (h : (sign? c []).isSome = true) (cs : List Char) :
    (sign? c cs).isSome = true := by
  unfold sign? at h
  split at h
  -- most signs have no longer ones, and for the others what is behind them tells which one it is
  all_goals first
    | rfl
    | (cases h; done)
    | (rename_i heq; cases heq)
    | (unfold sign?; split <;> first | rfl | contradiction)

/-- Two signs `>` are read as one token, or as the beginning of a longer one. -/
theorem sign?_shift (cs : List Char) : ∃ k n, sign? '>' ('>' :: cs) = some (k, n) ∧ 1 ≤ n := by
  cases cs with
  | nil => exact ⟨_, _, rfl, Nat.le_refl 1⟩
  | cons d cs =>
    by_cases hd : d = '>'
    · subst hd
      exact ⟨_, _, rfl, by decide⟩
    · refine ⟨.operator .shr, 1, ?_, Nat.le_refl 1⟩
      simp [sign?, hd]

/-- **More text does not make a sign shorter.** -/
theorem le_sign? {kind : TokenKind} {c : Char} {w : List Char}
    (h : sign? c w = some (kind, w.length)) (rest : List Char) :
    ∃ k n, sign? c (w ++ rest) = some (k, n) ∧ w.length ≤ n := by
  match w with
  | [] =>
    obtain ⟨⟨k, n⟩, hk⟩ := Option.isSome_iff_exists.mp (sign?_isSome_of_nil (by rw [h]; rfl) rest)
    exact ⟨k, n, hk, Nat.zero_le n⟩
  | [d] =>
    -- only `>>` may still grow
    unfold sign? at h
    split at h <;> cases h
    all_goals
      rename_i heq
      cases heq
      first | exact ⟨_, _, rfl, Nat.le_refl _⟩ | exact sign?_shift rest
  | [d, e] =>
    unfold sign? at h
    split at h <;> cases h
    rename_i heq
    cases heq
    exact ⟨_, _, rfl, Nat.le_refl _⟩
  | d :: e :: f :: w =>
    unfold sign? at h
    split at h <;> cases h

/-! ### Texts of a kind -/

/-- **Where a text of a kind stands, it is not missed:** a token is read that is not shorter, and if
it is not longer either, it is of that kind, or a keyword that is spelled like a name. -/
def NotMissed (k : TokenKind) (c : Char) (w rest : List Char) : Prop :=
  ∃ kind n, next c (w ++ rest) = (.token kind, n) ∧ w.length ≤ n ∧
    (n = w.length → k = kind ∨ k = .ident ∧ kind.isKeyword = true)

/-- A word is not missed: all of its characters are taken. -/
theorem notMissed_word {k : TokenKind} {c : Char} {w : List Char} (hc : isWordStart c = true)
    (hw : ∀ x ∈ w, isWordChar x = true)
    (hk : k = wordKind (c :: w) ∨ k = .ident ∧ (wordKind (c :: w)).isKeyword = true)
    (rest : List Char) : NotMissed k c w rest := by
  refine ⟨_, _, next_of_isWordStart hc (w ++ rest), ?_, ?_⟩
  · exact (greedy_reach isWordChar).le w (mem_kstar_single.mpr hw) rest
  · intro hn
    rwa [hn, List.take_left]

/-- A literal between quotes is not missed: the closing quote is found. -/
theorem notMissed_quotation {k : TokenKind} {c : Char} {w : List Char} (hback : c ≠ '\\')
    (hnext : ∀ cs, next c cs = quoted k c cs) (hw : c :: w ∈ Pattern.quotation c)
    (rest : List Char) :
    NotMissed k c w rest := by
  obtain ⟨-, v, hv, rfl⟩ := cons_mem_quotation.mp hw
  have hreach := quotedReach?_of_mem hback hv rest
  refine ⟨k, v.length + 1, ?_, ?_, fun _ => .inl rfl⟩
  · rw [hnext, quoted, List.append_assoc, List.singleton_append, hreach]
  · rw [List.length_append, List.length_singleton]

/-- A sign is not missed: none is read as a shorter one. -/
theorem notMissed_sign {k : TokenKind} {s : String} {c : Char} {w : List Char}
    (hk : k.symbol? = some s) (hs : s.toList = c :: w) (rest : List Char) :
    NotMissed k c w rest := by
  obtain ⟨kind, n, hsign, hle⟩ := le_sign? (sign?_of_symbol? hk hs) rest
  refine ⟨kind, n, next_of_sign? hsign, hle, fun hn => .inl ?_⟩
  -- the two signs are written alike, so they are of one kind
  have hsymbol := symbol?_of_sign? hsign
  rw [hn, List.take_left, ← hs, String.ofList_toList] at hsymbol
  have hkinds := (kindOf?_of_symbol? hk).symm.trans (kindOf?_of_symbol? hsymbol)
  exact Option.some.inj hkinds

/-- What begins with a character is not empty. -/
theorem nil_notMem_single_mul (p : Char → Bool) (l : Language Char) : [] ∉ single p * l := by
  rw [mem_single_mul]
  rintro ⟨c, v, -, -, h⟩
  exact nomatch h

/-- A text of a kind is never empty. -/
theorem nil_notMem_pattern (k : TokenKind) : [] ∉ k.pattern := by
  intro h
  cases k with
  | ident => exact nil_notMem_single_mul _ _ h
  | number =>
    rcases h with h | h
    · exact nil_notMem_single_mul _ _ h
    · obtain ⟨v, -, hv⟩ := mem_exactly_mul.mp h
      exact nomatch hv
  | str => exact nil_notMem_single_mul _ _ h
  | char => exact nil_notMem_single_mul _ _ h
  | operator op => cases op <;> exact nomatch mem_exactly.mp h
  | _ => exact nomatch mem_exactly.mp h

/-- A word is a name or a keyword. -/
theorem wordKind_cases (text : List Char) :
    wordKind text = .ident ∨ (wordKind text).isKeyword = true := by
  unfold wordKind
  split
  · exact .inr rfl
  split
  · exact .inr rfl
  split
  · exact .inr rfl
  · exact .inl rfl

/-- **No text of a kind is missed.** -/
theorem next_of_mem {k : TokenKind} {c : Char} {w : List Char} (h : c :: w ∈ k.pattern)
    (rest : List Char) : NotMissed k c w rest := by
  cases k with
  -- keywords are names with a kind of their own
  | trueWord =>
    obtain ⟨rfl, rfl⟩ := List.cons.inj (mem_exactly.mp h)
    exact notMissed_word (by decide) (List.all_eq_true.mp (by decide)) (.inl rfl) rest
  | falseWord =>
    obtain ⟨rfl, rfl⟩ := List.cons.inj (mem_exactly.mp h)
    exact notMissed_word (by decide) (List.all_eq_true.mp (by decide)) (.inl rfl) rest
  | nullWord =>
    obtain ⟨rfl, rfl⟩ := List.cons.inj (mem_exactly.mp h)
    exact notMissed_word (by decide) (List.all_eq_true.mp (by decide)) (.inl rfl) rest
  | ident =>
    rw [TokenKind.pattern, wordStart_eq, wordChar_eq, cons_mem_single_mul, mem_kstar_single] at h
    refine notMissed_word h.1 h.2 ?_ rest
    exact (wordKind_cases (c :: w)).imp Eq.symm fun hkeyword => ⟨rfl, hkeyword⟩
  -- both patterns begin with a digit, which is what numbers are told by
  | number =>
    have hc : c.isDigit = true := by
      rcases h with h | h
      · exact (cons_mem_decimal.mp h).1
      · rw [(cons_mem_hexadecimal.mp h).1]
        rfl
    exact ⟨.number, _, next_of_isDigit hc _, le_numberReach h rest, fun _ => .inl rfl⟩
  | str =>
    obtain ⟨rfl, -⟩ := cons_mem_quotation.mp h
    exact notMissed_quotation (by decide) (fun _ => rfl) h rest
  | char =>
    obtain ⟨rfl, -⟩ := cons_mem_quotation.mp h
    exact notMissed_quotation (by decide) (fun _ => rfl) h rest
  | operator op => exact notMissed_sign (k := .operator op) rfl (mem_exactly.mp h).symm rest
  | _ => exact notMissed_sign rfl (mem_exactly.mp h).symm rest

/-- What is read where a text of a kind stands at the front. -/
theorem next_of_prefix {k : TokenKind} {c : Char} {v cs : List Char} (hv : v ∈ k.pattern)
    (h : v <+: c :: cs) : ∃ w rest, v = c :: w ∧ cs = w ++ rest ∧ NotMissed k c w rest := by
  cases v with
  | nil => exact absurd hv (nil_notMem_pattern k)
  | cons d w =>
    obtain ⟨rest, hrest⟩ := h
    obtain ⟨rfl, rfl⟩ := List.cons.inj hrest
    exact ⟨w, rest, rfl, rfl, next_of_mem hv rest⟩

/-! ### What is read is the longest match -/

/-- A word matches the pattern of its kind. -/
theorem mem_pattern_wordKind {c : Char} {w : List Char} (hc : isWordStart c = true)
    (hw : ∀ x ∈ w, isWordChar x = true) : c :: w ∈ (wordKind (c :: w)).pattern := by
  unfold wordKind
  split
  next h => exact mem_exactly.mpr h
  split
  next h => exact mem_exactly.mpr h
  split
  next h => exact mem_exactly.mpr h
  · rw [TokenKind.pattern, wordStart_eq, wordChar_eq, cons_mem_single_mul, mem_kstar_single]
    exact ⟨hc, hw⟩

/-- What is reached between quotes matches the pattern. -/
theorem quotation_of_quotedReach? {quote : Char} {cs : List Char} {n : Nat}
    (h : quotedReach? quote cs = some n) : quote :: cs.take n ∈ Pattern.quotation quote :=
  cons_mem_quotation.mpr ⟨rfl, take_quoted cs n h⟩

/-- **What is read as a token is of its kind.** -/
theorem mem_pattern_of_next {c : Char} {cs : List Char} {kind : TokenKind} {n : Nat}
    (h : next c cs = (.token kind, n)) : c :: cs.take n ∈ kind.pattern := by
  cases htext : kind.hasText with
  | true =>
    rcases next_cases htext h with ⟨hc, rfl, rfl⟩ | ⟨hc, rfl, rfl⟩ | ⟨rfl, hn, rfl⟩ | ⟨rfl, hn, rfl⟩
    · refine mem_pattern_wordKind hc fun x hx => ?_
      rw [take_reach] at hx
      exact List.mem_takeWhile_imp hx
    · exact take_number hc cs
    · exact quotation_of_quotedReach? hn
    · exact quotation_of_quotedReach? hn
  | false =>
    rw [pattern_of_symbol? (symbol?_of_sign? (sign?_of_next htext h)), mem_exactly,
      String.toList_ofList]

/-- A sign takes characters that are there. -/
theorem sign?_le_length {c : Char} {cs : List Char} {kind : TokenKind} {n : Nat}
    (h : sign? c cs = some (kind, n)) : n ≤ cs.length := by
  unfold sign? at h
  split at h <;> cases h <;> simp

/-- A token takes characters that are there. -/
theorem token_le_length {c : Char} {cs : List Char} {kind : TokenKind} {n : Nat}
    (h : next c cs = (.token kind, n)) : n ≤ cs.length := by
  cases htext : kind.hasText with
  | true => exact next_le_length htext h
  | false => exact sign?_le_length (sign?_of_next htext h)

/-- **What is read as a token is the longest match.** -/
theorem longestMatch_of_next {c : Char} {cs : List Char} {kind : TokenKind} {n : Nat}
    (h : next c cs = (.token kind, n)) : LongestMatch kind (c :: cs.take n) (cs.drop n) := by
  have hlength : (cs.take n).length = n := List.length_take_of_le (token_le_length h)
  have hwhole : c :: cs.take n ++ cs.drop n = c :: cs := by
    rw [List.cons_append, List.take_append_drop]
  -- any other text of a kind is found to be no longer, and if it is as long, to be of this kind
  have hread : ∀ k : TokenKind, ∀ v ∈ k.pattern, v <+: c :: cs → ∃ w, v = c :: w ∧ w.length ≤ n ∧
      (n = w.length → k = kind ∨ k = .ident ∧ kind.isKeyword = true) := by
    intro k v hv hprefix
    obtain ⟨w, rest, rfl, rfl, kind', n', hnext, hle, hsame⟩ := next_of_prefix hv hprefix
    obtain ⟨hkind, rfl⟩ := Prod.mk.inj (hnext.symm.trans h)
    obtain rfl := token.inj hkind
    exact ⟨w, rfl, hle, hsame⟩
  refine ⟨mem_pattern_of_next h, fun k v hv hprefix => ?_, fun k hk => ?_⟩
  · rw [hwhole] at hprefix
    obtain ⟨w, rfl, hle, -⟩ := hread k v hv hprefix
    rw [List.length_cons, List.length_cons, hlength]
    exact Nat.succ_le_succ hle
  · obtain ⟨w, hw, -, hsame⟩ := hread k _ hk ⟨cs.drop n, hwhole⟩
    refine hsame ?_
    rw [← (List.cons.inj hw).2, hlength]

/-- Nothing of any kind stands where no token is read. -/
theorem noMatch_of_next {c : Char} {cs : List Char} (h : ∀ kind n, next c cs ≠ (.token kind, n)) :
    NoMatch (c :: cs) := by
  intro k v hv hprefix
  obtain ⟨w, rest, -, rfl, kind, n, hnext, -⟩ := next_of_prefix hv hprefix
  exact h kind n hnext

/-- Where nothing matches, no token is read. -/
theorem ne_token_of_noMatch {c : Char} {cs : List Char} (h : NoMatch (c :: cs)) (kind : TokenKind)
    (n : Nat) : next c cs ≠ (.token kind, n) := by
  intro hnext
  refine h kind _ (mem_pattern_of_next hnext) ⟨cs.drop n, ?_⟩
  rw [List.cons_append, List.take_append_drop]

/-! ### What is read is what is to be found -/

theorem isBlank_of_isQuote {c : Char} (h : isQuote c = true) : isBlank c = false := by
  rcases (Bool.or_eq_true _ _).mp h with h | h <;> rw [eq_of_beq h] <;> rfl

/-- A literal between quotes is read, or it is not closed. -/
theorem quoted_cases (kind : TokenKind) (quote : Char) (cs : List Char) :
    (∃ n, quoted kind quote cs = (.token kind, n)) ∨ quoted kind quote cs = (.unterminated, 0) := by
  unfold quoted
  split
  next n _ => exact .inl ⟨n, rfl⟩
  next => exact .inr rfl

/-- What else there is to read than tokens: words and numbers are always tokens, quotes and signs
only where they are complete. -/
theorem next_cases_of_ne_token {c : Char} {cs : List Char}
    (h : ∀ kind n, next c cs ≠ (.token kind, n)) : (isBlank c = true ∧ next c cs = (.blank, 0)) ∨
      (isQuote c = true ∧ next c cs = (.unterminated, 0)) ∨
        (isBlank c = false ∧ isQuote c = false ∧ next c cs = (.invalid, 0)) := by
  obtain ⟨found, hfound⟩ : ∃ found, next c cs = found := ⟨_, rfl⟩
  rw [hfound] at h ⊢
  unfold next at hfound
  split at hfound
  next hblank => exact .inl ⟨hblank, hfound.symm⟩
  next hblank =>
    refine .inr ?_
    -- words, numbers and quotations come before signs, and all but open quotations are tokens
    split at hfound
    · exact absurd hfound.symm (h _ _)
    split at hfound
    · exact absurd hfound.symm (h _ _)
    split at hfound
    next hdouble =>
      rcases quoted_cases .str c cs with ⟨n, hn⟩ | hopen
      · exact absurd (hfound.symm.trans hn) (h _ n)
      · exact .inl ⟨(Bool.or_eq_true _ _).mpr (.inl hdouble), hfound.symm.trans hopen⟩
    next hdouble =>
      split at hfound
      next hsingle =>
        rcases quoted_cases .char c cs with ⟨n, hn⟩ | hopen
        · exact absurd (hfound.symm.trans hn) (h _ n)
        · exact .inl ⟨(Bool.or_eq_true _ _).mpr (.inr hsingle), hfound.symm.trans hopen⟩
      next hsingle =>
        split at hfound
        · exact absurd hfound.symm (h _ _)
        · have hquote : isQuote c = false :=
            Bool.or_eq_false_iff.mpr ⟨by simpa using hdouble, by simpa using hsingle⟩
          exact .inr ⟨by simpa using hblank, hquote, hfound.symm⟩

/-- **What is read is what is to be found.** -/
theorem found_next (c : Char) (cs : List Char) :
    Found (next c cs).1 (c :: cs.take (next c cs).2) (cs.drop (next c cs).2) := by
  by_cases h : ∀ kind n, next c cs ≠ (.token kind, n)
  · have hnone := noMatch_of_next h
    rcases next_cases_of_ne_token h with ⟨hc, hnext⟩ | ⟨hc, hnext⟩ | ⟨hblank, hquote, hnext⟩
    · rw [hnext]
      exact .blank hc
    · rw [hnext]
      exact .unterminated hc hnone
    · rw [hnext]
      exact .invalid hblank hquote hnone
  · simp only [not_forall, not_not] at h
    obtain ⟨kind, n, hnext⟩ := h
    rw [hnext]
    exact .token (longestMatch_of_next hnext)

/-- There always is something to be found. -/
theorem exists_found (c : Char) (cs : List Char) :
    ∃ l w rest, c :: cs = w ++ rest ∧ rest.length < (c :: cs).length ∧ Found l w rest := by
  refine ⟨_, _, _, ?_, ?_, found_next c cs⟩
  · rw [List.cons_append, List.take_append_drop]
  · rw [List.length_drop, List.length_cons]
    omega

/-- **There is only one thing to be found.** -/
theorem next_of_found {l : Lexeme} {w rest : List Char} (h : Found l w rest) :
    ∃ c cs, w = c :: cs ∧ next c (cs ++ rest) = (l, cs.length) := by
  cases h with
  | @blank c rest hc => exact ⟨c, [], rfl, next_of_isBlank hc _⟩
  | @token kind w rest h =>
    cases w with
    | nil => exact absurd h.mem (nil_notMem_pattern kind)
    | cons c w =>
      obtain ⟨kind', n, hnext, hle, hsame⟩ := next_of_mem h.mem rest
      -- what is read there is not longer either, since it is of a kind
      have hread := mem_pattern_of_next hnext
      have hlength := h.longest kind' _ hread ⟨(w ++ rest).drop n, by
        rw [List.cons_append, List.take_append_drop, List.cons_append]⟩
      rw [List.length_cons, List.length_cons,
        List.length_take_of_le (token_le_length hnext)] at hlength
      obtain rfl : n = w.length := by omega
      rw [List.take_left] at hread
      refine ⟨c, w, rfl, ?_⟩
      rcases hsame rfl with rfl | ⟨rfl, hkeyword⟩
      · exact hnext
      · -- a name for which a keyword was read is not preferred
        rcases h.preferred kind' hread with rfl | ⟨-, hname⟩
        · exact hnext
        · exact absurd hname Bool.false_ne_true
  | @invalid c rest hblank hquote h =>
    refine ⟨c, [], rfl, ?_⟩
    rcases next_cases_of_ne_token (ne_token_of_noMatch h) with ⟨hc, -⟩ | ⟨hc, -⟩ | ⟨-, -, hnext⟩
    · exact absurd (hblank.symm.trans hc) Bool.false_ne_true
    · exact absurd (hquote.symm.trans hc) Bool.false_ne_true
    · exact hnext
  | @unterminated c rest hquote h =>
    refine ⟨c, [], rfl, ?_⟩
    rcases next_cases_of_ne_token (ne_token_of_noMatch h) with ⟨hc, -⟩ | ⟨-, hnext⟩ | ⟨-, hc, -⟩
    · exact absurd ((isBlank_of_isQuote hquote).symm.trans hc) Bool.false_ne_true
    · exact hnext
    · exact absurd (hc.symm.trans hquote) Bool.false_ne_true

end Lexeme

/-! ### Whole texts -/

/-- **What is to be read** of a text that stands `offset` bytes into a source of `total` bytes. A
piece whose bounds are beyond the limit of spans ends the reading, and so does a quote that is
never closed. -/
inductive Tokenized (total : Nat) : Nat → List Char → Lexed → Prop
  | done {offset : Nat} : Tokenized total offset [] .empty
  | blank {offset : Nat} {w rest : List Char} {out : Lexed} (h : Found .blank w rest)
    (hrest : Tokenized total (offset + Text.width w) rest out) :
    Tokenized total offset (w ++ rest) out
  | token {offset : Nat} {w rest : List Char} {kind : TokenKind} {span : Span} {out : Lexed}
    (h : Found (.token kind) w rest)
    (hspan : Span.ofBounds? offset (offset + Text.width w) = .ok span)
    (hrest : Tokenized total (offset + Text.width w) rest out) :
    Tokenized total offset (w ++ rest) (out.consToken ⟨kind, span, String.ofList w⟩)
  | invalid {offset : Nat} {w rest : List Char} {span : Span} {out : Lexed}
    (h : Found .invalid w rest) (hspan : Span.ofBounds? offset (offset + Text.width w) = .ok span)
    (hrest : Tokenized total (offset + Text.width w) rest out) :
    Tokenized total offset (w ++ rest) (out.consError (.invalidCharacter (String.ofList w) span))
  | unterminated {offset : Nat} {w rest : List Char} {span : Span} (h : Found .unterminated w rest)
    (hspan : Span.ofBounds? offset (offset + Text.width w) = .ok span) :
    Tokenized total offset (w ++ rest)
      (.failed (.unterminatedLiteral ⟨offset, min total Span.limit⟩))
  | tooLarge {offset : Nat} {w rest : List Char} {l : Lexeme} {overflow : Span.Overflow}
    (h : Found l w rest) (hl : l ≠ .blank)
    (hspan : Span.ofBounds? offset (offset + Text.width w) = .error overflow) :
    Tokenized total offset (w ++ rest) (.failed (.sourceTooLarge overflow))

/-- **One piece of a text,** and how reading goes on behind it. -/
theorem lexFrom_of_found {l : Lexeme} {w rest : List Char} (h : Found l w rest)
    (total offset : Nat) : lexFrom total offset (w ++ rest) = match l with
      | .blank => lexFrom total (offset + Text.width w) rest
      | lexeme =>
        match Span.ofBounds? offset (offset + Text.width w) with
        | .error overflow => .failed (.sourceTooLarge overflow)
        | .ok span =>
          match lexeme with
          | .token kind =>
            (lexFrom total (offset + Text.width w) rest).consToken ⟨kind, span, String.ofList w⟩
          | .unterminated => .failed (.unterminatedLiteral ⟨offset, min total Span.limit⟩)
          | _ =>
            (lexFrom total (offset + Text.width w) rest).consError
              (.invalidCharacter (String.ofList w) span) := by
  -- what was found is what `next` answers at the front of the rest
  obtain ⟨c, cs, rfl, hnext⟩ := next_of_found h
  rw [List.cons_append, lexFrom, hnext]
  simp only [List.take_left, List.drop_left]
  cases l <;> rfl

/-- **What is read is what is to be read.** -/
theorem tokenized_lexFrom (total : Nat) :
    ∀ (offset : Nat) (cs : List Char), Tokenized total offset cs (lexFrom total offset cs)
  | offset, [] => by
    rw [lexFrom]
    exact .done
  | offset, c :: cs => by
    -- every step takes a character at least, so the recursion is on what is left
    obtain ⟨l, w, rest, hsplit, hshorter, hfound⟩ := exists_found c cs
    have hrest := tokenized_lexFrom total (offset + Text.width w) rest
    rw [hsplit, lexFrom_of_found hfound]
    cases hspan : Span.ofBounds? offset (offset + Text.width w) with
    | error overflow =>
      cases l with
      | blank => exact .blank hfound hrest
      | _ => exact .tooLarge hfound (by simp) hspan
    | ok span =>
      cases l with
      | blank => exact .blank hfound hrest
      | token kind => exact .token hfound hspan hrest
      | invalid => exact .invalid hfound hspan hrest
      | unterminated => exact .unterminated hfound hspan
termination_by _ cs => cs.length
decreasing_by exact hshorter

/-- **Only that is to be read.** -/
theorem eq_lexFrom_of_tokenized {total offset : Nat} {cs : List Char} {out : Lexed}
    (h : Tokenized total offset cs out) : out = lexFrom total offset cs := by
  induction h with
  | done => rw [lexFrom]
  | blank h _ ih => rw [lexFrom_of_found h, ih]
  | token h hspan _ ih => rw [lexFrom_of_found h, hspan, ih]
  | invalid h hspan _ ih => rw [lexFrom_of_found h, hspan, ih]
  | unterminated h hspan => rw [lexFrom_of_found h, hspan]
  | @tooLarge offset w rest l overflow h hl hspan =>
    rw [lexFrom_of_found h, hspan]
    cases l with
    | blank => exact absurd rfl hl
    | _ => rfl

/-- The text `w` stands `offset` bytes into the source, in front of `rest`. -/
def Text.Stands (source : List Char) (offset : Nat) (w rest : List Char) : Prop :=
  ∃ before, source = before ++ (w ++ rest) ∧ Text.width before = offset

/-- **Tokens and errors at their places in the source:** a token is the longest match there, and
where an error is, nothing matches. -/
structure Lexed.Longest (source : List Char) (out : Lexed) : Prop where
  token : ∀ t ∈ out.tokens, ∃ rest, Text.Stands source t.span.start t.text.toList rest ∧
    LongestMatch t.kind t.text.toList rest
  invalid : ∀ text span, .invalidCharacter text span ∈ out.errors →
    ∃ rest, Text.Stands source span.start text.toList rest ∧ NoMatch (text.toList ++ rest)
  unterminated : ∀ span, .unterminatedLiteral span ∈ out.errors →
    ∃ c rest, isQuote c = true ∧ Text.Stands source span.start [c] rest ∧ NoMatch (c :: rest)

/-- An error that is neither says nothing about a place. -/
theorem Lexed.longest_tooLarge (source : List Char) (overflow : Span.Overflow) :
    Lexed.Longest source (.failed (.sourceTooLarge overflow)) := by
  refine ⟨nofun, fun text span h => ?_, fun span h => ?_⟩
  · exact nomatch List.mem_singleton.mp h
  · exact nomatch List.mem_singleton.mp h

/-- One more token in front, if it is the longest match there. -/
theorem Lexed.Longest.consToken {source w rest : List Char} {out : Lexed} {kind : TokenKind}
    {span : Span} (h : Lexed.Longest source out) (hstands : Text.Stands source span.start w rest)
    (hmatch : LongestMatch kind w rest) :
    Lexed.Longest source (out.consToken ⟨kind, span, String.ofList w⟩) := by
  refine ⟨fun t ht => ?_, h.invalid, h.unterminated⟩
  rcases List.mem_cons.mp ht with rfl | ht
  · simp only [String.toList_ofList]
    exact ⟨rest, hstands, hmatch⟩
  · exact h.token t ht

/-- One more skipped character in front, if nothing matches there. -/
theorem Lexed.Longest.consInvalid {source w rest : List Char} {out : Lexed} {span : Span}
    (h : Lexed.Longest source out) (hstands : Text.Stands source span.start w rest)
    (hnone : NoMatch (w ++ rest)) :
    Lexed.Longest source (out.consError (.invalidCharacter (String.ofList w) span)) := by
  refine ⟨h.token, fun text span' hmem => ?_, fun span' hmem => ?_⟩
  · rcases List.mem_cons.mp hmem with heq | hmem
    · obtain ⟨rfl, rfl⟩ := ParseError.invalidCharacter.inj heq
      rw [String.toList_ofList]
      exact ⟨rest, hstands, hnone⟩
    · exact h.invalid text span' hmem
  · rcases List.mem_cons.mp hmem with heq | hmem
    · exact nomatch heq
    · exact h.unterminated span' hmem

/-- **The places of what is to be read,** by induction on the pieces; `front` is what stands in
front of them. -/
theorem Lexed.longest_of_tokenized {total offset : Nat} {cs : List Char} {out : Lexed}
    (h : Tokenized total offset cs out) :
    ∀ front, Text.width front = offset → Lexed.Longest (front ++ cs) out := by
  -- What has been read is carried along as `front`, since a match is one in the whole source.
  induction h with
  | done => exact fun front _ => ⟨nofun, nofun, nofun⟩
  | @blank offset w rest out h _ ih =>
    intro front hfront
    rw [← List.append_assoc]
    exact ih _ (by rw [Text.width_append, hfront])
  | @token offset w rest kind span out h hspan _ ih =>
    intro front hfront
    obtain ⟨-, -, rfl⟩ := (Span.ofBounds?_eq_ok_iff _ _ _).mp hspan
    cases h with | token h =>
    have hlater := ih (front ++ w) (by rw [Text.width_append, hfront])
    rw [List.append_assoc] at hlater
    exact hlater.consToken ⟨front, rfl, hfront⟩ h
  | @invalid offset w rest span out h hspan _ ih =>
    intro front hfront
    obtain ⟨-, -, rfl⟩ := (Span.ofBounds?_eq_ok_iff _ _ _).mp hspan
    cases h with | @invalid c rest hblank hquote h =>
    have hlater := ih (front ++ [c]) (by rw [Text.width_append, hfront])
    rw [List.append_assoc] at hlater
    exact hlater.consInvalid ⟨front, rfl, hfront⟩ h
  | @unterminated offset w rest span h hspan =>
    intro front hfront
    cases h with | @unterminated c rest hquote h =>
    refine ⟨nofun, fun text span hmem => ?_, fun span hmem => ?_⟩
    · exact nomatch List.mem_singleton.mp hmem
    · obtain rfl := ParseError.unterminatedLiteral.inj (List.mem_singleton.mp hmem)
      exact ⟨c, rest, hquote, ⟨front, rfl, hfront⟩, h⟩
  | tooLarge => exact fun front _ => Lexed.longest_tooLarge _ _

/-- **Reading takes the longest match at every place.** What `lex` gives is exactly what the
patterns say is to be read; each token of it is the longest match at its place, and no text of any
kind stands at the place of an error. -/
theorem lex_longest (source : String) :
    (∀ out, Tokenized (Text.width source.toList) 0 source.toList out ↔ out = lex source) ∧
      (lex source).Longest source.toList := by
  have hlex := tokenized_lexFrom (Text.width source.toList) 0 source.toList
  refine ⟨fun out => ⟨eq_lexFrom_of_tokenized, ?_⟩, ?_⟩
  · rintro rfl
    exact hlex
  · exact Lexed.longest_of_tokenized hlex [] rfl

end OperandOrder
