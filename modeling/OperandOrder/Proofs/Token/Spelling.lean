import OperandOrder.Proofs.Token.Lexemes

/-!
# Texts and the words they spell

A `Word` is a token without its place. `Spells cs ws` says that the text `cs` falls into the words
`ws` and blanks, the longest lexeme at each place; `lexFrom_of_spells` says that reading it then
gives these words and no error. Within a spelling the text goes on behind each word, so a spelling
is built from its end.

In the other direction only names and literals matter here: what is read as one of these is one on
its own as well (`kindOf?_of_mem_lex`). All other tokens are signs, and a sign of one kind is
written in one way only (`TokenKind.symbol?`). What holds of every token is shown by
`forall_mem_lexFrom`.
-/

namespace OperandOrder

open Lexeme

/-- **A word:** a text, and the kind of token that it is. -/
structure Word where
  kind : TokenKind
  text : String
  deriving DecidableEq, Repr

/-- The word of a token. -/
def Token.word (t : Token) : Word := ⟨t.kind, t.text⟩

/-- The word that a text is on its own. -/
def Word.of (text : String) : Word := ⟨(kindOf? text).getD .ident, text⟩

theorem Word.of_eq {text : String} {kind : TokenKind} (h : kindOf? text = some kind) :
    Word.of text = ⟨kind, text⟩ := by
  rw [Word.of, h, Option.getD_some]

/-- **A text and its words.** -/
inductive Spells : List Char → List Word → Prop
  | nil : Spells [] []
  | blank {c : Char} {cs : List Char} {ws : List Word} (hc : isBlank c = true)
    (hcs : Spells cs ws) : Spells (c :: cs) ws
  | word {c : Char} {cs rest : List Char} {kind : TokenKind} {ws : List Word}
    (hnext : next c (cs ++ rest) = (.token kind, cs.length)) (hrest : Spells rest ws) :
    Spells (c :: (cs ++ rest)) (⟨kind, String.ofList (c :: cs)⟩ :: ws)

theorem Spells.space {cs : List Char} {ws : List Word} (h : Spells cs ws) : Spells (' ' :: cs) ws :=
  .blank rfl h

/-- One more text in front, if it is a lexeme there. -/
theorem Spells.text {text : String} {c : Char} {cs rest : List Char} {kind : TokenKind}
    {ws : List Word} (htext : text.toList = c :: cs) (hkind : kindOf? text = some kind)
    (hnext : next c (cs ++ rest) = (.token kind, cs.length)) (hrest : Spells rest ws) :
    Spells (text.toList ++ rest) (.of text :: ws) := by
  have hword := Spells.word hnext hrest
  rwa [← htext, String.ofList_toList, ← Word.of_eq hkind, ← List.cons_append, ← htext] at hword

/-! ### Signs -/

/-- How a token of this kind is written, if there is only one way. -/
def TokenKind.symbol? : TokenKind → Option String
  | .leftParen => some "("
  | .rightParen => some ")"
  | .comma => some ","
  | .dot => some "."
  | .question => some "?"
  | .colon => some ":"
  | .bang => some "!"
  | .tilde => some "~"
  | .operator op => some op.symbol
  | _ => none

theorem symbol?_of_unary? {kind : TokenKind} {op : UnaryOp} (h : kind.unary? = some op) :
    kind.symbol? = some op.symbol := by
  unfold TokenKind.unary? at h
  split at h <;> cases h <;> rfl

/-- The sign at the front of a text is written as its kind says. -/
theorem symbol?_of_sign? {c : Char} {cs : List Char} {kind : TokenKind} {n : Nat}
    (h : sign? c cs = some (kind, n)) : kind.symbol? = some (String.ofList (c :: cs.take n)) := by
  unfold sign? at h
  split at h <;> cases h <;> rfl

/-- The text of a sign is of its kind. -/
theorem kindOf?_of_symbol? {kind : TokenKind} {s : String} (h : kind.symbol? = some s) :
    kindOf? s = some kind := by
  cases kind with
  | operator op =>
    obtain rfl := Option.some.inj h
    cases op <;> rfl
  | _ => cases h <;> rfl

/-- Names and literals are not signs. -/
theorem symbol?_of_hasText {kind : TokenKind} (h : kind.hasText = true) : kind.symbol? = none := by
  cases kind <;> first | rfl | exact absurd h Bool.false_ne_true

/-- A word is told apart by its text. -/
theorem hasText_wordKind (text : List Char) : (wordKind text).hasText = true := by
  unfold wordKind
  split
  · rfl
  split
  · rfl
  split <;> rfl

/-- What is no name and no literal is read as a sign. -/
theorem sign?_of_next {c : Char} {cs : List Char} {kind : TokenKind} {n : Nat}
    (hkind : kind.hasText = false) (h : next c cs = (.token kind, n)) :
    sign? c cs = some (kind, n) := by
  -- any other way to read a token gives a name or a literal
  have hother : ∀ k : TokenKind, k.hasText = true → kind ≠ k := by
    rintro k hk rfl
    exact Bool.false_ne_true (hkind.symm.trans hk)
  unfold next at h
  split at h
  · exact nomatch (Prod.mk.inj h).1
  split at h
  · exact absurd (token.inj (Prod.mk.inj h).1).symm (hother _ (hasText_wordKind _))
  split at h
  · exact absurd (token.inj (Prod.mk.inj h).1).symm (hother _ rfl)
  split at h
  · exact absurd (quotedReach?_of_quoted h).2 (hother _ rfl)
  split at h
  · exact absurd (quotedReach?_of_quoted h).2 (hother _ rfl)
  split at h
  next k m hsign =>
    obtain ⟨hk, rfl⟩ := Prod.mk.inj h
    rw [hsign, token.inj hk]
  next => exact nomatch (Prod.mk.inj h).1

/-! ### Reading a spelled text -/

theorem next_of_isBlank {c : Char} (hc : isBlank c = true) (cs : List Char) :
    next c cs = (.blank, 0) := by
  unfold next
  rw [if_pos hc]

/-- A blank is passed over. -/
theorem lexFrom_blank (total offset : Nat) {c : Char} (hc : isBlank c = true) (cs : List Char) :
    lexFrom total offset (c :: cs) = lexFrom total (offset + Text.width [c]) cs := by
  rw [lexFrom, next_of_isBlank hc]
  rfl

/-- A lexeme is read as a token, if its offsets fit. -/
theorem lexFrom_word (total offset : Nat) {c : Char} {cs rest : List Char} {kind : TokenKind}
    (hnext : next c (cs ++ rest) = (.token kind, cs.length))
    (hwidth : offset + Text.width (c :: cs) ≤ Span.limit) :
    lexFrom total offset (c :: (cs ++ rest)) =
      (lexFrom total (offset + Text.width (c :: cs)) rest).consToken
        ⟨kind, ⟨offset, offset + Text.width (c :: cs)⟩, String.ofList (c :: cs)⟩ := by
  have hspan : Span.ofBounds? offset (offset + Text.width (c :: cs)) =
      .ok ⟨offset, offset + Text.width (c :: cs)⟩ :=
    (Span.ofBounds?_eq_ok_iff _ _ _).mpr ⟨by omega, by omega, rfl⟩
  rw [lexFrom, hnext]
  simp only [List.take_left, List.drop_left]
  rw [hspan]

/-- **A spelled text is read as it is spelled,** if its offsets fit. -/
theorem lexFrom_of_spells {cs : List Char} {ws : List Word} (h : Spells cs ws) (total offset : Nat)
    (hwidth : offset + Text.width cs ≤ Span.limit) :
    (lexFrom total offset cs).errors = [] ∧
    (lexFrom total offset cs).tokens.map Token.word = ws := by
  induction h generalizing offset with
  | nil =>
    rw [lexFrom]
    exact ⟨rfl, rfl⟩
  | @blank c cs ws hc _ ih =>
    rw [lexFrom_blank total offset hc]
    exact ih _ (by simp only [Text.width_cons, Text.width_nil] at hwidth ⊢; omega)
  | @word c cs rest kind ws hnext _ ih =>
    -- the span of the word is within the limit, since the whole text is
    have hwidths : Text.width (c :: (cs ++ rest)) = Text.width (c :: cs) + Text.width rest := by
      rw [← Text.width_append, List.cons_append]
    rw [lexFrom_word total offset hnext (by omega)]
    obtain ⟨herrors, htokens⟩ := ih (offset + Text.width (c :: cs)) (by omega)
    refine ⟨herrors, ?_⟩
    exact congrArg (⟨kind, String.ofList (c :: cs)⟩ :: ·) htokens

theorem lex_of_spells {text : String} {ws : List Word} (h : Spells text.toList ws)
    (hwidth : Text.width text.toList ≤ Span.limit) :
    (lex text).errors = [] ∧ (lex text).tokens.map Token.word = ws :=
  lexFrom_of_spells h _ 0 (by rwa [Nat.zero_add])

/-! ### What has been read -/

/-- **What holds of every token** that is read from anywhere. -/
theorem forall_mem_lexFrom {p : Token → Prop}
    (h : ∀ offset c cs kind n span, next c cs = (.token kind, n) →
      Span.ofBounds? offset (offset + Text.width (c :: cs.take n)) = .ok span →
        p ⟨kind, span, String.ofList (c :: cs.take n)⟩) (total : Nat) :
    ∀ (offset : Nat) (cs : List Char), ∀ t ∈ (lexFrom total offset cs).tokens, p t
  | _, [], t, ht => by
    rw [lexFrom] at ht
    exact absurd ht List.not_mem_nil
  | offset, c :: cs, t, ht => by
    have hlater := fun stop => forall_mem_lexFrom h total stop (cs.drop (next c cs).2)
    rw [lexFrom] at ht
    split at ht
    next => exact hlater _ t ht
    next =>
      split at ht
      next => exact absurd ht List.not_mem_nil
      next span hspan =>
        split at ht
        next kind hfound =>
          -- the token is the one that is read here, or one of those behind it
          rcases List.mem_cons.mp ht with rfl | ht
          · exact h offset c cs kind _ span (Prod.ext hfound rfl) hspan
          · exact hlater _ t ht
        next => exact absurd ht List.not_mem_nil
        next => exact hlater _ t ht
termination_by _ cs => cs.length
decreasing_by simp only [List.length_cons, List.length_drop]; omega

/-- Names and literals are such on their own. -/
theorem kindOf?_of_mem_lex {source : String} {t : Token} (ht : t ∈ (lex source).tokens)
    (hkind : t.kind.hasText = true) : kindOf? t.text = some t.kind := by
  refine forall_mem_lexFrom (p := fun t => t.kind.hasText = true → kindOf? t.text = some t.kind)
    ?_ _ _ _ t ht hkind
  intro offset c cs kind n span hnext _ hkind
  exact kindOf?_of_next hkind hnext

/-- Tokens begin within the limit of the offsets. -/
theorem start_le_of_mem_lex {source : String} {t : Token} (ht : t ∈ (lex source).tokens) :
    t.span.start ≤ Span.limit := by
  refine forall_mem_lexFrom (p := fun t => t.span.start ≤ Span.limit) ?_ _ _ _ t ht
  intro offset c cs kind n span _ hspan
  obtain ⟨hstart, -, rfl⟩ := (Span.ofBounds?_eq_ok_iff _ _ _).mp hspan
  exact hstart

end OperandOrder
