import OperandOrder.Proofs.Parser.Derived
import OperandOrder.Proofs.Parser.Nesting
import OperandOrder.Proofs.Token.Layout

/-!
# The words of what is read

The output of a derived tree has the words of the tokens that it was derived from, in their order
(`Derives.map_word`): the sign of an operator, a mark or a parenthesis is written in one way only,
and names and literals are printed as they were read (`asWritten_lex`).

Besides its words an output has only gaps. Each of them stands behind a word, and behind the last
one there is one more word (`Derives.surplus_le`), so a tree that was read is printed less than
twice as wide as its source (`width_fragments_parse`).
-/

namespace OperandOrder

open Fragment Lexeme

/-! ### Tokens -/

/-- **A token as it is written:** its text alone is of its kind, and a sign has its only text. -/
structure Token.AsWritten (t : Token) : Prop where
  kind : kindOf? t.text = some t.kind
  symbol : ∀ s, t.kind.symbol? = some s → t.text = s

namespace Token.AsWritten

variable {t : Token}

theorem word (h : t.AsWritten) : t.word = .of t.text := (Word.of_eq h.kind).symm

theorem word_of_symbol (h : t.AsWritten) {s : String} (hs : t.kind.symbol? = some s) :
    t.word = .of s := by
  rw [h.word, h.symbol s hs]

theorem word_of_kind (h : t.AsWritten) {kind : TokenKind} (hkind : t.kind = kind) {s : String}
    (hs : kind.symbol? = some s) : t.word = .of s :=
  h.word_of_symbol (hkind ▸ hs)

end Token.AsWritten

/-- **Tokens are as they are written.** -/
theorem asWritten_lex (source : String) : ∀ t ∈ (lex source).tokens, t.AsWritten := by
  refine forall_mem_lexFrom (p := Token.AsWritten) ?_ _ _ _
  intro offset c cs kind n span hnext _
  by_cases hkind : kind.hasText = true
  · refine ⟨kindOf?_of_next hkind hnext, fun s hs => ?_⟩
    exact nomatch (symbol?_of_hasText hkind).symm.trans hs
  · have hsymbol := symbol?_of_sign? (sign?_of_next (by simpa using hkind) hnext)
    exact ⟨kindOf?_of_symbol? hsymbol, fun s hs => Option.some.inj (hsymbol.symm.trans hs)⟩

/-! ### Words -/

/-- **The output has the words of the tokens.** -/
theorem Derives.map_word {s : Symbol} {ts : List Token} {v : s.Value} (h : Derives s ts v)
    (hts : ∀ t ∈ ts, t.AsWritten) : ts.map Token.word = words (s.output v) := by
  -- the words of a sign are found by its kind, those of the parts are known
  induction h with
  | plain _ ih => exact ih hts
  | conditional hc hq _ hl _ ihc ihy ihn =>
    simp only [List.forall_mem_append, List.forall_mem_cons] at hts
    obtain ⟨hcs, htq, hys, htl, hns⟩ := hts
    simp only [Symbol.output] at ihc ihy ihn ⊢
    rw [Expr.fragments_conditional_of_not_wraps _ hc.condition_not_wraps]
    simp [ihc hcs, ihy hys, ihn hns, htq.word_of_kind hq rfl, htl.word_of_kind hl rfl]
  | level _ he hrest ihe ihrest =>
    obtain ⟨hts, hus⟩ := List.forall_mem_append.mp hts
    simp only [Symbol.output] at ihe ihrest ⊢
    rw [fragments_levelTree he.rank hrest.rank]
    simp [ihe hts, ihrest hus]
  | last => rfl
  | next ht _ _ _ ihe ihrest =>
    simp only [List.forall_mem_append, List.forall_mem_cons] at hts
    obtain ⟨htop, hts, hus⟩ := hts
    simp only [Symbol.output] at ihe ihrest ⊢
    rw [tailFragments_cons]
    simp [ihe hts, ihrest hus, htop.word_of_kind ht rfl]
  | unary ht he ih =>
    obtain ⟨htop, hts⟩ := List.forall_mem_cons.mp hts
    simp only [Symbol.output] at ih ⊢
    rw [Expr.fragments_unary_of_not_wraps _ _ he.operand_not_wraps]
    simp [ih hts, Expr.words_signGap, htop.word_of_symbol (symbol?_of_unary? ht)]
  | operand _ ih => exact ih hts
  | first _ ih => exact ih hts
  | field he hdot _ ih =>
    simp only [List.forall_mem_append, List.forall_mem_cons] at hts
    obtain ⟨hts, htdot, htname, -⟩ := hts
    simp only [Symbol.output] at ih ⊢
    rw [Expr.fragments_field_of_not_wraps _ he.receiver_not_wraps]
    simp [ih hts, htdot.word_of_kind hdot rfl, htname.word]
  | method he hdot _ _ ihe ihas =>
    simp only [List.forall_mem_append, List.forall_mem_cons] at hts
    obtain ⟨hts, htdot, htname, hus⟩ := hts
    simp only [Symbol.output] at ihe ihas ⊢
    rw [Expr.fragments_method_of_not_wraps _ he.ne_absent he.receiver_not_wraps]
    simp [ihe hts, ihas hus, htdot.word_of_kind hdot rfl, htname.word]
  | literal _ => exact congrArg ([·]) (hts _ List.mem_cons_self).word
  | ident _ => exact congrArg ([·]) (hts _ List.mem_cons_self).word
  | call _ _ ih =>
    obtain ⟨htname, hus⟩ := List.forall_mem_cons.mp hts
    change _ = words (Expr.fragments _)
    rw [output_plainCall]
    simp [ih hus, htname.word]
  | paren ho _ hc ih =>
    simp only [List.forall_mem_append, List.forall_mem_cons] at hts
    obtain ⟨hto, hts, htc, -⟩ := hts
    simp only [Symbol.output] at ih ⊢
    rw [Expr.fragments]
    simp [ih hts, hto.word_of_kind ho rfl, htc.word_of_kind hc rfl]
  | noArgs ho hc =>
    simp only [List.forall_mem_cons] at hts
    obtain ⟨hto, htc, -⟩ := hts
    simp [Symbol.output, Expr.argumentFragments, hto.word_of_kind ho rfl, htc.word_of_kind hc rfl]
  | someArgs ho _ ih =>
    obtain ⟨hto, hus⟩ := List.forall_mem_cons.mp hts
    rw [output_args]
    simp [ih hus, hto.word_of_kind ho rfl]
  | lastArg _ hc ih =>
    simp only [List.forall_mem_append, List.forall_mem_cons] at hts
    obtain ⟨hts, htc, -⟩ := hts
    change _ → _ = words (Expr.fragments _) at ih
    rw [output_lastArg]
    simp [ih hts, htc.word_of_kind hc rfl]
  | nextArg _ hcomma has ihe ihas =>
    simp only [List.forall_mem_append, List.forall_mem_cons] at hts
    obtain ⟨hts, htcomma, hus⟩ := hts
    change _ → _ = words (Expr.fragments _) at ihe
    rw [output_nextArg _ has.list_ne_nil]
    simp [ihe hts, ihas hus, htcomma.word_of_kind hcomma rfl]

/-! ### Gaps -/

/-- The characters of several words. -/
def Word.chars (ws : List Word) : List Char := ws.flatMap fun w => w.text.toList

theorem Word.width_chars_cons (w : Word) (ws : List Word) :
    Text.width (chars (w :: ws)) = Text.width w.text.toList + Text.width (chars ws) := by
  rw [chars, List.flatMap_cons, Text.width_append]
  rfl

namespace Fragment

/-- How many words more than gaps there are in an output. -/
def excess (fs : List Fragment) : Int := (words fs).length - fs.count .space

@[simp] theorem excess_nil : excess [] = 0 := rfl

@[simp] theorem excess_append (fs gs : List Fragment) :
    excess (fs ++ gs) = excess fs + excess gs := by
  rw [excess, words_append, List.length_append, List.count_append, excess, excess]
  omega

@[simp] theorem excess_text (s : String) (fs : List Fragment) :
    excess (.text s :: fs) = excess fs + 1 := by
  rw [excess, words_text, List.length_cons, List.count_cons_of_ne (by simp), excess]
  omega

@[simp] theorem excess_space (fs : List Fragment) : excess (.space :: fs) = excess fs - 1 := by
  rw [excess, words_space, List.count_cons_self, excess]
  omega

/-- **An output is as wide as its words and its gaps.** -/
theorem width_eq_count_add (fs : List Fragment) :
    width fs = fs.count .space + Text.width (Word.chars (words fs)) := by
  induction fs with
  | nil => rfl
  | cons f fs ih =>
    rw [width_cons, ih]
    cases f with
    | space =>
      rw [width_space, List.count_cons_self, words_space]
      omega
    | text s =>
      rw [width_text, List.count_cons_of_ne (by simp), words_text, Word.width_chars_cons]
      change Text.width s.toList + _ = _ + (Text.width s.toList + _)
      omega

end Fragment

theorem Expr.excess_signGap (op : UnaryOp) (operand : Form) : -1 ≤ excess (signGap op operand) := by
  unfold signGap
  split
  · exact Int.le_refl (-1)
  · exact (by decide : (-1 : Int) ≤ 0)

/-- How many words more than gaps there are at least in the output of what is derived. -/
def Symbol.surplus : Symbol → Int
  | .tail _ => 0
  | _ => 1

/-- **Every gap has a word in front of it,** and in a whole output there is one more word. -/
theorem Derives.surplus_le {s : Symbol} {ts : List Token} {v : s.Value} (h : Derives s ts v) :
    s.surplus ≤ excess (s.output v) := by
  -- a sign between two parts brings two gaps and one word, and the part in front of it has a
  -- word to spare
  induction h with
  | plain _ ih => exact ih
  | conditional hc _ _ _ _ ihc ihy ihn =>
    simp only [Symbol.output, Symbol.surplus] at ihc ihy ihn ⊢
    rw [Expr.fragments_conditional_of_not_wraps _ hc.condition_not_wraps]
    simp only [excess_append, excess_space, excess_text, excess_nil]
    omega
  | level _ he hrest ihe ihrest =>
    simp only [Symbol.output, Symbol.surplus] at ihe ihrest ⊢
    rw [fragments_levelTree he.rank hrest.rank, excess_append]
    omega
  | last => exact Int.le_refl 0
  | next _ _ _ _ ihe ihrest =>
    simp only [Symbol.output, Symbol.surplus] at ihe ihrest ⊢
    rw [tailFragments_cons]
    simp only [excess_append, excess_space, excess_text, excess_nil]
    omega
  | @unary t op ts e _ he ih =>
    simp only [Symbol.output, Symbol.surplus] at ih ⊢
    have hgap := Expr.excess_signGap op e.form
    rw [Expr.fragments_unary_of_not_wraps _ _ he.operand_not_wraps, excess_text, excess_append]
    omega
  | operand _ ih => exact ih
  | first _ ih => exact ih
  | field he _ _ ih =>
    simp only [Symbol.output, Symbol.surplus] at ih ⊢
    rw [Expr.fragments_field_of_not_wraps _ he.receiver_not_wraps]
    simp only [excess_append, excess_text, excess_nil]
    omega
  | method he _ _ _ ihe ihas =>
    simp only [Symbol.output, Symbol.surplus] at ihe ihas ⊢
    rw [Expr.fragments_method_of_not_wraps _ he.ne_absent he.receiver_not_wraps, excess_append,
      excess_text, excess_text]
    omega
  | literal _ => exact Int.le_refl 1
  | ident _ => exact Int.le_refl 1
  | call _ _ ih =>
    simp only [Symbol.surplus] at ih ⊢
    rw [Symbol.output, output_plainCall, excess_text]
    omega
  | paren _ _ _ ih =>
    simp only [Symbol.output, Symbol.surplus] at ih ⊢
    rw [Expr.fragments]
    simp only [excess_append, excess_text, excess_nil]
    omega
  | noArgs _ _ => exact (by decide : (1 : Int) ≤ 2)
  | someArgs _ _ ih =>
    simp only [Symbol.surplus] at ih ⊢
    rw [output_args, excess_text]
    omega
  | lastArg _ _ ih =>
    simp only [Symbol.surplus] at ih ⊢
    change 1 ≤ excess (Expr.fragments _) at ih
    rw [output_lastArg, excess_append, excess_text, excess_nil]
    omega
  | nextArg _ _ has ihe ihas =>
    simp only [Symbol.surplus] at ihe ihas ⊢
    change 1 ≤ excess (Expr.fragments _) at ihe
    rw [output_nextArg _ has.list_ne_nil, excess_append, excess_text, excess_space]
    omega

/-! ### Widths of tokens -/

/-- A token is as long as its text, which is not empty. -/
theorem span_of_mem_lex (source : String) : ∀ t ∈ (lex source).tokens,
    t.span.stop = t.span.start + Text.width t.text.toList ∧ 0 < Text.width t.text.toList := by
  refine forall_mem_lexFrom (p := fun t => t.span.stop = t.span.start + Text.width t.text.toList ∧
    0 < Text.width t.text.toList) ?_ _ _ _
  intro offset c cs kind n span _ hspan
  obtain ⟨-, -, rfl⟩ := (Span.ofBounds?_eq_ok_iff _ _ _).mp hspan
  have hpos := c.utf8Size_pos
  rw [String.toList_ofList]
  refine ⟨rfl, ?_⟩
  rw [Text.width_cons]
  omega

/-- **Tokens in order take no more room than there is.** -/
theorem Parser.TokensInOrder.width_le {total : Nat} {ts : List Token} (h : TokensInOrder total ts)
    (hts : ∀ t ∈ ts, t.span.stop = t.span.start + Text.width t.text.toList) :
    edge total ts + Text.width (Word.chars (ts.map Token.word)) ≤ total := by
  induction ts with
  | nil => exact le_refl total
  | cons t ts ih =>
    obtain ⟨-, hnext, hlater⟩ := h
    obtain ⟨ht, hts⟩ := List.forall_mem_cons.mp hts
    have hrest := ih hlater hts
    rw [List.map_cons, Word.width_chars_cons]
    change t.span.start + (Text.width t.text.toList + _) ≤ total
    omega

/-- There are no more tokens than bytes in them. -/
theorem length_le_width_chars {ts : List Token} (hts : ∀ t ∈ ts, 0 < Text.width t.text.toList) :
    ts.length ≤ Text.width (Word.chars (ts.map Token.word)) := by
  induction ts with
  | nil => exact le_refl 0
  | cons t ts ih =>
    obtain ⟨ht, hts⟩ := List.forall_mem_cons.mp hts
    have hrest := ih hts
    rw [List.map_cons, Word.width_chars_cons, List.length_cons]
    change _ ≤ Text.width t.text.toList + _
    omega

/-- **What was read is printed less than twice as wide as its source.** -/
theorem width_fragments_parse {source : String} (h : (parse source).errors = []) :
    width (parse source).expr.fragments < 2 * Text.width source.toList := by
  obtain ⟨-, he⟩ := derives_of_parse h
  have hspans := span_of_mem_lex source
  have hroom := (Parser.inOrder_lex source).width_le fun t ht => (hspans t ht).1
  have hlength := length_le_width_chars fun t ht => (hspans t ht).2
  have hexcess : 1 ≤ excess (parse source).expr.fragments := he.surplus_le
  have hwords : (lex source).tokens.map Token.word = words (parse source).expr.fragments :=
    he.map_word (asWritten_lex source)
  -- as many gaps as words but one, and the words take no more room than in the source
  rw [excess, ← hwords, List.length_map] at hexcess
  rw [width_eq_count_add, ← hwords]
  omega

end OperandOrder
