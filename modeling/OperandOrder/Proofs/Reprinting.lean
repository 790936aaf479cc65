import OperandOrder.Proofs.Parser.Words

/-!
# Printing what was read

A tree that was read without errors has its parentheses where they are needed, so none is put in
when it is printed (`Expr.noParens_of_explicit`), and the output has the words of the source
(`Derives.map_word`). No two words of an output are read as one (`Expr.spells_fragments`). Hence
printing keeps the words of a source and changes only what is between them: `parse_reprinted`.

What is printed is longer than the source where that was written with fewer spaces, so it may be
too long to be read again; then, and only then, an error is reported
(`Fragment.lexFrom_errors_of_width`). Sources of this kind exist: `parse_tightSum`.
-/

namespace OperandOrder

open Fragment Lexeme

/-! ### Positions -/

namespace Expr

/-- The operands of a node, each with its position. -/
def positionedOperands (op : BinaryOp) (leftmost : Bool) : List Expr → List (Position × Expr)
  | [] => []
  | e :: es => (.operand op leftmost, e) :: positionedOperands op false es

/-- **The children that may need a parenthesis,** each with its position. Arguments, the inside of a
parenthesis and the branches of a conditional never do. -/
def positioned : Expr → List (Position × Expr)
  | .call _ receiver _ _ => [(.receiver, receiver)]
  | .field _ receiver _ => [(.receiver, receiver)]
  | .unary _ _ operand => [(.unaryOperand, operand)]
  | .binary _ op left right => positionedOperands op true [left, right]
  | .chain _ op operands => positionedOperands op true operands
  | .conditional _ cond _ _ => [(.condition, cond)]
  | _ => []

/-- **No child of the node needs a parenthesis** where it stands. -/
def NoParens (x : Expr) : Prop := ∀ p ∈ x.positioned, p.2.needsParens p.1 = false

/-- A child that is left as it is was not wrapped, and has its parentheses itself. -/
theorem not_wraps_of_mark {position : Position} {e : Expr}
    (h : position.mark e.form e.explicit = e) :
    e.needsParens position = false ∧ e.explicit = e := by
  unfold Position.mark at h
  split at h
  next hwraps =>
    -- it would be a parenthesis, and no position wraps one
    have hplain : e.form = .plain := by rw [← h]; rfl
    rw [hplain, position.wraps_plain] at hwraps
    exact absurd hwraps Bool.false_ne_true
  next hwraps => exact ⟨eq_false_of_ne_true hwraps, h⟩

/-- Where no tree changes, each is as it was. -/
theorem explicit_of_explicitAll {es : List Expr} (h : explicitAll es = es) :
    ∀ e ∈ es, e.explicit = e := by
  induction es with
  | nil => exact List.forall_mem_nil _
  | cons e es ih =>
    obtain ⟨he, hes⟩ := List.cons.inj h
    exact List.forall_mem_cons.mpr ⟨he, ih hes⟩

/-- Where no operand gets a parenthesis, none needs one. -/
theorem noParens_of_explicitOperands {op : BinaryOp} {leftmost : Bool} {es : List Expr}
    (h : explicitOperands op leftmost es = es) :
    (∀ p ∈ positionedOperands op leftmost es, p.2.needsParens p.1 = false) ∧
      ∀ e ∈ es, e.explicit = e := by
  induction es generalizing leftmost with
  | nil => exact ⟨List.forall_mem_nil _, List.forall_mem_nil _⟩
  | cons e es ih =>
    obtain ⟨hmark, hes⟩ := List.cons.inj h
    obtain ⟨hwraps, he⟩ := not_wraps_of_mark hmark
    obtain ⟨hothers, hexplicits⟩ := ih hes
    exact ⟨List.forall_mem_cons.mpr ⟨hwraps, hothers⟩, List.forall_mem_cons.mpr ⟨he, hexplicits⟩⟩

/-- **Where all parentheses are there, none is needed.** -/
theorem noParens_of_explicit (e : Expr) (h : e.explicit = e) : e.Every NoParens := by
  have hnone : ∀ x : Expr, x.positioned = [] → x.NoParens := by
    intro x hx p hp
    rw [hx] at hp
    exact absurd hp List.not_mem_nil
  -- a node is left as it is only if each of its children is
  induction e using induct with
  | absent => exact hnone _ rfl
  | error s => exact hnone _ rfl
  | literal s kind text => exact hnone _ rfl
  | ident s name => exact hnone _ rfl
  | call s receiver name args hreceiver hargs =>
    obtain ⟨-, hmark, -, hall⟩ := Expr.call.inj h
    obtain ⟨hwraps, hexplicit⟩ := not_wraps_of_mark hmark
    exact ⟨List.forall_mem_singleton.mpr hwraps, hreceiver hexplicit,
      (everyOf_iff _ _).mpr fun e he => hargs e he (explicit_of_explicitAll hall e he)⟩
  | field s receiver name hreceiver =>
    obtain ⟨-, hmark, -⟩ := Expr.field.inj h
    obtain ⟨hwraps, hexplicit⟩ := not_wraps_of_mark hmark
    exact ⟨List.forall_mem_singleton.mpr hwraps, hreceiver hexplicit⟩
  | unary s op operand hoperand =>
    obtain ⟨-, -, hmark⟩ := Expr.unary.inj h
    obtain ⟨hwraps, hexplicit⟩ := not_wraps_of_mark hmark
    exact ⟨List.forall_mem_singleton.mpr hwraps, hoperand hexplicit⟩
  | paren s inner hinner => exact ⟨hnone _ rfl, hinner (Expr.paren.inj h).2⟩
  | binary s op left right hleft hright =>
    obtain ⟨-, -, hmarkl, hmarkr⟩ := Expr.binary.inj h
    obtain ⟨hwrapsl, hl⟩ := not_wraps_of_mark hmarkl
    obtain ⟨hwrapsr, hr⟩ := not_wraps_of_mark hmarkr
    exact ⟨List.forall_mem_cons.mpr ⟨hwrapsl, List.forall_mem_singleton.mpr hwrapsr⟩, hleft hl,
      hright hr⟩
  | chain s op operands hoperands =>
    obtain ⟨-, -, hall⟩ := Expr.chain.inj h
    obtain ⟨hwraps, hexplicits⟩ := noParens_of_explicitOperands hall
    exact ⟨hwraps, (everyOf_iff _ _).mpr fun e he => hoperands e he (hexplicits e he)⟩
  | conditional s cond yes no hcond hyes hno =>
    obtain ⟨-, hmark, hy, hn⟩ := Expr.conditional.inj h
    obtain ⟨hwraps, hexplicit⟩ := not_wraps_of_mark hmark
    exact ⟨List.forall_mem_singleton.mpr hwraps, hcond hexplicit, hyes hy, hno hn⟩

end Expr

/-! ### Texts that are too long -/

/-- A word that ends beyond the limit is not read. -/
theorem lexFrom_overflow (total : Nat) {offset : Nat} {c : Char} {cs rest : List Char}
    {kind : TokenKind} (hnext : next c (cs ++ rest) = (.token kind, cs.length))
    (hwidth : Span.limit < offset + Text.width (c :: cs)) :
    (lexFrom total offset (c :: (cs ++ rest))).errors ≠ [] := by
  rw [lexFrom, hnext]
  simp only [List.take_left]
  split
  next => exact List.cons_ne_nil _ _
  next span hspan =>
    obtain ⟨-, hstop, -⟩ := (Span.ofBounds?_eq_ok_iff _ _ _).mp hspan
    omega

/-- **An output that does not fit is not read without errors,** since it ends with a word. -/
theorem Fragment.lexFrom_errors_of_width (total : Nat) {fs : List Fragment}
    (hproper : ∀ f ∈ fs, f.Proper) (h : Spells (allChars fs) (words fs))
    (hlast : ∃ gs s, fs = gs ++ [.text s]) {offset : Nat}
    (hwidth : Span.limit < offset + width fs) :
    (lexFrom total offset (allChars fs)).errors ≠ [] := by
  induction fs generalizing offset with
  | nil =>
    obtain ⟨gs, s, hgs⟩ := hlast
    exact absurd hgs (by simp)
  | cons f fs ih =>
    obtain ⟨hf, hfs⟩ := List.forall_mem_cons.mp hproper
    -- what is behind the first fragment ends with the same word, unless it is empty
    have hbehind : fs = [] ∨ ∃ gs s, fs = gs ++ [.text s] := by
      obtain ⟨gs, s, hgs⟩ := hlast
      cases gs with
      | nil => exact .inl (List.cons.inj hgs).2
      | cons g gs => exact .inr ⟨gs, s, (List.cons.inj hgs).2⟩
    rw [width_cons] at hwidth
    cases f with
    | space =>
      have hchars : allChars (.space :: fs) = ' ' :: allChars fs := rfl
      rw [hchars, words_space] at h
      have hne : fs ≠ [] := by
        -- the output does not end with a space
        rintro rfl
        obtain ⟨gs, s, hgs⟩ := hlast
        cases gs <;> simp at hgs
      rw [hchars, lexFrom_blank total offset rfl]
      refine ih hfs (spells_of_blank rfl h) (hbehind.resolve_left hne) ?_
      rw [width_space] at hwidth
      change Span.limit < offset + 1 + width fs
      omega
    | text s =>
      obtain ⟨kind, hkind⟩ := kindOf?_of_proper hf
      obtain ⟨c, cs, htext, -⟩ := kindOf?_eq_some_iff.mp hkind
      have hchars : allChars (.text s :: fs) = s.toList ++ allChars fs := rfl
      rw [hchars] at h ⊢
      obtain ⟨hnext, hrest⟩ := spells_text htext hkind h
      rw [width_text] at hwidth
      rw [htext] at hwidth ⊢
      rw [List.cons_append]
      by_cases hfits : offset + Text.width (c :: cs) ≤ Span.limit
      · rw [lexFrom_word total offset hnext hfits]
        refine ih hfs hrest (hbehind.resolve_left ?_) (by omega)
        rintro rfl
        rw [width_nil] at hwidth
        omega
      · exact lexFrom_overflow total hnext (by omega)

/-- A printed tree that does not fit is not read without errors. -/
theorem Expr.Printable.lex_errors_of_width {e : Expr} (h : e.Printable)
    (hwidth : Span.limit < Text.width e.print.toList) : (lex e.print).errors ≠ [] := by
  have hneat := e.neat_fragments h
  obtain ⟨gs, s, hlast, -⟩ := hneat.closes
  rw [toList_print] at hwidth
  rw [lex, toList_print]
  exact lexFrom_errors_of_width _ hneat.proper (spells_fragments h) ⟨gs, s, hlast⟩
    (by rwa [Nat.zero_add])

/-! ### Printing what was read -/

/-- **Printing keeps the words of a source** that is read without errors. No child of its tree needs
a parenthesis that is not there. What is printed is less than twice as wide as the source; as long
as it is within the limit, it has the same words, and beyond the limit it cannot be read. -/
theorem parse_reprinted (source : String) (h : (parse source).errors = []) :
    let e := (parse source).expr
    (∀ x, e.HasNode x → x.NoParens) ∧
    Text.width e.print.toList < 2 * Text.width source.toList ∧
    (Text.width e.print.toList ≤ Span.limit → (lex e.print).errors = [] ∧
      (lex e.print).tokens.map Token.word = (lex source).tokens.map Token.word) ∧
    (Span.limit < Text.width e.print.toList → (lex e.print).errors ≠ []) := by
  intro e
  obtain ⟨-, hderives⟩ := derives_of_parse h
  have hprintable : e.Printable := printable_parse h
  -- the tree was derived from the tokens, and prints the words that it was derived from
  have hwords : (lex source).tokens.map Token.word = words e.fragments :=
    hderives.map_word (asWritten_lex source)
  have hchars := e.toList_print
  have hspells := e.spells_fragments hprintable
  refine ⟨?_, ?_, ?_, ?_⟩
  · exact fun x hx => (e.noParens_of_explicit hderives.explicit).node hx
  · rw [hchars]
    exact width_fragments_parse h
  · intro hwidth
    rw [hwords]
    exact lex_of_spells (hchars ▸ hspells) hwidth
  · exact hprintable.lex_errors_of_width

/-- Numbers before members, two signs in a row, and no space where one could be saved. -/
def crowded : String := "(1).x(a,- -b)*c-d-!e?f:3 .y"

/-- It is printed with more space, and with the same words. -/
theorem parse_reprinted_crowded : (parse crowded).errors = [] ∧
    (parse crowded).expr.print = "(1).x(a, - -b) * c - d - !e ? f : 3.y" ∧
    (lex (parse crowded).expr.print).errors = [] ∧
    (lex (parse crowded).expr.print).tokens.map Token.word =
      (lex crowded).tokens.map Token.word := by
  have herrors : (parse crowded).errors = [] := by decide +kernel
  have hprint : (parse crowded).expr.print = "(1).x(a, - -b) * c - d - !e ? f : 3.y" := by
    decide +kernel
  obtain ⟨-, -, hsame, -⟩ := parse_reprinted crowded herrors
  exact ⟨herrors, hprint, hsame (by rw [hprint]; decide)⟩

/-! ### A source that is printed too wide

The limit on what is printed cannot be spared. A sum without spaces gains two of them, so a sum that
is just within the limit is printed beyond it. Its text is too long to be evaluated: what it is read
as is shown for any name in front.
-/

/-- The sum of `name` and `a`, without spaces. -/
def tightSum (name : String) : String := name ++ "+a"

theorem toList_tightSum (name : String) : (tightSum name).toList = name.toList ++ ['+', 'a'] :=
  String.toList_append

/-- A name ends where a sign follows. -/
theorem reach_eq_length_of_sign {cs rest : List Char} (h : cs.all isWordChar = true) :
    reach isWordChar (cs ++ '+' :: rest) = cs.length :=
  reach_append (List.all_eq_true.mp h) ('+' :: rest)

/-- It has three words: the sign ends the name. -/
theorem spells_tightSum {name : String} (h : IsName name) :
    Spells (tightSum name).toList [.of name, .of "+", .of "a"] := by
  obtain ⟨c, cs, htext, hc, hcs, hword⟩ := isName_iff.mp h
  have hkind : wordKind (c :: cs) = .ident := htext ▸ wordKind_eq_ident_iff.mpr hword
  have hnext : next c (cs ++ ['+', 'a']) = (.token .ident, cs.length) := by
    rw [next_of_isWordStart hc, reach_eq_length_of_sign hcs, List.take_left, hkind]
  have hplus : kindOf? "+" = some (.operator .add) := rfl
  have ha : kindOf? "a" = some .ident := rfl
  have hrest : Spells ("+".toList ++ ("a".toList ++ [])) [.of "+", .of "a"] :=
    .text rfl hplus rfl (.text rfl ha rfl .nil)
  rw [toList_tightSum]
  exact .text htext h hnext hrest

/-- **Such a sum is read as one,** as long as it fits. -/
theorem parse_tightSum {name : String} (h : IsName name)
    (hwidth : Text.width (tightSum name).toList ≤ Span.limit) :
    (parse (tightSum name)).errors = [] ∧ ∃ s s₁ s₂,
      (parse (tightSum name)).expr = .binary s .add (.ident s₁ name) (.ident s₂ "a") := by
  obtain ⟨herrors, hwords⟩ := lex_of_spells (spells_tightSum h) hwidth
  obtain ⟨t₁, ts, htokens, hfirst, hts⟩ := exists_of_map_word_cons hwords
  obtain ⟨t₂, ts, rfl, hsecond, hts⟩ := exists_of_map_word_cons hts
  obtain ⟨t₃, ts, rfl, hthird, hts⟩ := exists_of_map_word_cons hts
  obtain rfl := List.map_eq_nil_iff.mp hts
  have hplus : kindOf? "+" = some (.operator .add) := rfl
  have ha : kindOf? "a" = some .ident := rfl
  obtain ⟨hkind₁, htext₁⟩ := eq_of_word hfirst h
  obtain ⟨hkind₂, -⟩ := eq_of_word hsecond hplus
  obtain ⟨hkind₃, htext₃⟩ := eq_of_word hthird ha
  -- two names at the level of products, and the sign between them one level up
  have hleft : Derives (.level 3) [t₁] (.ident t₁.span t₁.text) :=
    .level_mono (le_refl 2) (by omega) (.operand (.first (.ident hkind₁)))
  have hright : Derives (.level 3) [t₃] (.ident t₃.span t₃.text) :=
    .level_mono (le_refl 2) (by omega) (.operand (.first (.ident hkind₃)))
  have hsum : Derives (.level 4) [t₁, t₂, t₃] _ :=
    .level (by omega) hleft (.next hkind₂ rfl hright .last)
  have hderives := Derives.plain (Derives.level_mono (by omega) (by omega) hsum)
  rw [← htokens] at hderives
  obtain ⟨hparse, hexpr⟩ := parse_of_derives herrors hderives
  refine ⟨hparse, t₁.span.merge t₃.span, t₁.span, t₃.span, ?_⟩
  rw [hexpr, htext₁, htext₃, levelTree, List.takeWhile_nil, List.dropWhile_nil, levelTree]
  rfl

/-- Printed, such a sum is two spaces wider. -/
theorem width_print_sum (s s₁ s₂ : Span) (name : String) :
    Text.width (Expr.print (.binary s .add (.ident s₁ name) (.ident s₂ "a"))).toList =
      Text.width (tightSum name).toList + 2 := by
  have hchars : (Expr.print (.binary s .add (.ident s₁ name) (.ident s₂ "a"))).toList =
      name.toList ++ [' ', '+', ' ', 'a'] := by
    rw [Expr.toList_print]
    rfl
  rw [hchars, toList_tightSum, Text.width_append, Text.width_append, Nat.add_assoc]
  rfl

/-- A name of `n` letters. -/
def letters (n : Nat) : String := String.ofList (List.replicate n 'a')

/-- Such a text is a name: no keyword begins with its letter. -/
theorem isName_letters (n : Nat) : IsName (letters (n + 1)) := by
  have hletters : (letters (n + 1)).toList = 'a' :: List.replicate n 'a' := String.toList_ofList
  have hall : (List.replicate n 'a').all isWordChar = true := by
    rw [List.all_replicate]
    split <;> rfl
  -- each keyword begins with another letter
  refine isName_iff.mpr ⟨'a', List.replicate n 'a', hletters, rfl, hall, ?_, ?_, ?_⟩ <;>
  · intro hword
    rw [hword] at hletters
    exact absurd (List.cons.inj hletters).1 (by decide)

/-- Each letter takes one byte. -/
theorem width_letters (n : Nat) : Text.width (letters n).toList = n := by
  rw [letters, String.toList_ofList]
  induction n with
  | zero => rfl
  | succ n ih =>
    rw [List.replicate_succ, Text.width_cons, ih]
    exact Nat.add_comm 1 n

/-- **What is read without errors may be printed too wide to be read again.** -/
theorem print_too_wide : Text.width (tightSum (letters 4294967293)).toList ≤ Span.limit ∧
    (parse (tightSum (letters 4294967293))).errors = [] ∧
    (lex (parse (tightSum (letters 4294967293))).expr.print).errors ≠ [] := by
  -- the name is kept as it is; its text is never looked at
  have hname : IsName (letters 4294967293) := isName_letters 4294967292
  have hwidth : Text.width (tightSum (letters 4294967293)).toList = Span.limit := by
    rw [toList_tightSum, Text.width_append, width_letters]
    rfl
  generalize letters 4294967293 = name at hname hwidth ⊢
  obtain ⟨herrors, s, s₁, s₂, hexpr⟩ := parse_tightSum hname hwidth.le
  refine ⟨hwidth.le, herrors, (printable_parse herrors).lex_errors_of_width ?_⟩
  rw [hexpr, width_print_sum, hwidth]
  omega

end OperandOrder
