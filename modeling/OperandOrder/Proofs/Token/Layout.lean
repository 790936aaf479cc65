import OperandOrder.Proofs.PrintedLine

/-!
# Where the words of an output stand

`tokensAt o fs` are the tokens of the output `fs`, put down `o` bytes into a text: each word where
the widths of the fragments before it add up to. `lex_indented` says that these are the tokens that
are read when the output of a printable tree stands behind blanks. Where an output is put together
from parts, its tokens are those of the parts, each at its own offset (`tokensAt_append`,
`tokensAt_split`).

The indentation of a line that is read without errors consists of blanks (`isBlank_of_mem_indent`).
-/

namespace OperandOrder

open Lexeme

namespace Fragment

/-! ### Widths -/

/-- Number of bytes of several fragments. -/
def width (fs : List Fragment) : Nat := Text.width (allChars fs)

@[simp] theorem width_nil : width [] = 0 := rfl

@[simp] theorem width_append (fs gs : List Fragment) : width (fs ++ gs) = width fs + width gs := by
  rw [width, allChars_append, Text.width_append]
  rfl

theorem width_cons (f : Fragment) (fs : List Fragment) : width (f :: fs) = width [f] + width fs :=
  width_append [f] fs

@[simp] theorem width_text (s : String) : width [.text s] = Text.width s.toList := by
  simp [width, allChars, chars]

@[simp] theorem width_space : width [.space] = 1 := rfl

/-- A parenthesis around a child is two bytes. -/
theorem width_wrap (position : Position) (form : Form) (fs : List Fragment) :
    width (wrap position form fs) = width fs + if position.wraps form then 2 else 0 := by
  unfold wrap
  split
  · have hopen : width [.text "("] = 1 := rfl
    have hclose : width [.text ")"] = 1 := rfl
    rw [width_append, width_cons, hopen, hclose]
    omega
  · rfl

/-! ### Tokens with their places -/

/-- **The tokens of an output** that begins at an offset. -/
def tokensAt : Nat → List Fragment → List Token
  | _, [] => []
  | o, .space :: fs => tokensAt (o + 1) fs
  | o, .text s :: fs =>
    ⟨(Word.of s).kind, ⟨o, o + Text.width s.toList⟩, s⟩ :: tokensAt (o + Text.width s.toList) fs

/-- The tokens of an output have its words. -/
theorem map_word_tokensAt (o : Nat) (fs : List Fragment) :
    (tokensAt o fs).map Token.word = words fs := by
  induction fs generalizing o with
  | nil => rfl
  | cons f fs ih =>
    cases f with
    | space => exact ih (o + 1)
    | text s => exact congrArg (Word.of s :: ·) (ih _)

theorem length_tokensAt (o : Nat) (fs : List Fragment) :
    (tokensAt o fs).length = (words fs).length := by
  rw [← map_word_tokensAt o fs, List.length_map]

/-- The tokens of two parts of an output, the second from where the first ends. -/
theorem tokensAt_append (o : Nat) (fs gs : List Fragment) :
    tokensAt o (fs ++ gs) = tokensAt o fs ++ tokensAt (o + width fs) gs := by
  induction fs generalizing o with
  | nil => rfl
  | cons f fs ih =>
    cases f with
    | space =>
      rw [List.cons_append, tokensAt, tokensAt, ih, width_cons, width_space, Nat.add_assoc]
    | text s =>
      rw [List.cons_append, tokensAt, tokensAt, ih, width_cons, width_text, Nat.add_assoc,
        List.cons_append]

/-- **The tokens of two parts** of an output, told apart by how many there are. -/
theorem tokensAt_split {o : Nat} {fs gs : List Fragment} {us vs : List Token}
    (h : us ++ vs = tokensAt o (fs ++ gs)) (hlength : us.length = (words fs).length) :
    us = tokensAt o fs ∧ vs = tokensAt (o + width fs) gs := by
  rw [tokensAt_append] at h
  exact List.append_inj h (by rw [hlength, length_tokensAt])

/-- The token of the text in front, and those behind it. -/
theorem tokensAt_cons {o : Nat} {s : String} {fs : List Fragment} {t : Token} {ts : List Token}
    (h : t :: ts = tokensAt o (.text s :: fs)) :
    t.span.start = o ∧ t.span.stop = o + width [.text s] ∧
      ts = tokensAt (o + width [.text s]) fs := by
  rw [tokensAt] at h
  obtain ⟨rfl, rfl⟩ := List.cons.inj h
  rw [width_text]
  exact ⟨rfl, rfl, rfl⟩

/-- What is behind a text with a space on either side. -/
theorem tokensAt_between {o : Nat} {s : String} {fs : List Fragment} {t : Token} {ts : List Token}
    (h : t :: ts = tokensAt o ([.space, .text s, .space] ++ fs)) :
    ts = tokensAt (o + width [.space, .text s, .space]) fs := by
  have hwidth : width [.space, .text s, .space] = 1 + (width [.text s] + 1) := by
    rw [width_cons .space [.text s, .space], width_cons (.text s) [.space]]
    rfl
  obtain ⟨-, -, hts⟩ := tokensAt_cons h
  rw [hwidth, ← Nat.add_assoc, ← Nat.add_assoc]
  exact hts

/-! ### Reading -/

theorem kindOf?_of_proper {s : String} (h : Proper (.text s)) : ∃ kind, kindOf? s = some kind := by
  rcases h with hs | ⟨kind, -, hs⟩
  · have hall : ∀ s ∈ signs, (kindOf? s).isSome = true := by decide
    exact Option.isSome_iff_exists.mp (hall s hs)
  · exact ⟨kind, hs⟩

/-- A blank in front spells nothing. -/
theorem spells_of_blank {c : Char} {cs : List Char} {ws : List Word} (hc : isBlank c = true)
    (h : Spells (c :: cs) ws) : Spells cs ws := by
  generalize hchars : c :: cs = chars at h
  cases h with
  | nil => exact nomatch hchars
  | blank _ hrest =>
    obtain ⟨-, rfl⟩ := List.cons.inj hchars
    exact hrest
  | word hnext _ =>
    obtain ⟨rfl, -⟩ := List.cons.inj hchars
    rw [next_of_isBlank hc] at hnext
    exact nomatch (Prod.mk.inj hnext).1

/-- How a text begins that spells a word which stands in front of it. -/
theorem spells_text {s : String} {c : Char} {cs rest : List Char} {kind : TokenKind}
    {ws : List Word} (htext : s.toList = c :: cs) (hkind : kindOf? s = some kind)
    (h : Spells (s.toList ++ rest) (.of s :: ws)) :
    next c (cs ++ rest) = (.token kind, cs.length) ∧ Spells rest ws := by
  rw [htext, List.cons_append, Word.of_eq hkind] at h
  -- the text begins no blank, so it is read as a word, and that is the given one
  generalize hchars : c :: (cs ++ rest) = chars at h
  generalize hwords : (⟨kind, s⟩ : Word) :: ws = words at h
  cases h with
  | nil => exact nomatch hchars
  | @blank d ds ws' hd _ =>
    obtain ⟨rfl, -⟩ := List.cons.inj hchars
    obtain ⟨c', cs', htext', hnext⟩ := kindOf?_eq_some_iff.mp hkind
    obtain ⟨rfl, rfl⟩ := List.cons.inj (htext.symm.trans htext')
    rw [next_of_isBlank hd] at hnext
    exact nomatch (Prod.mk.inj hnext).1
  | @word d ds rest' kind' ws' hnext hrest =>
    obtain ⟨hword, rfl⟩ := List.cons.inj hwords
    obtain ⟨rfl, hs⟩ := Word.mk.inj hword
    have hds : c :: cs = d :: ds := by rw [← htext, hs, String.toList_ofList]
    obtain ⟨rfl, rfl⟩ := List.cons.inj hds
    obtain rfl : rest = rest' := List.append_cancel_left (List.cons.inj hchars).2
    exact ⟨hnext, hrest⟩

/-- **An output is read word by word, each at its place,** if its offsets fit. -/
theorem lexFrom_layout (total : Nat) {fs : List Fragment} (hproper : ∀ f ∈ fs, f.Proper)
    (h : Spells (allChars fs) (words fs)) {offset : Nat} (hwidth : offset + width fs ≤ Span.limit) :
    lexFrom total offset (allChars fs) = ⟨tokensAt offset fs, []⟩ := by
  induction fs generalizing offset with
  | nil =>
    change lexFrom total offset [] = _
    rw [lexFrom]
    rfl
  | cons f fs ih =>
    obtain ⟨hf, hfs⟩ := List.forall_mem_cons.mp hproper
    rw [width_cons] at hwidth
    cases f with
    | space =>
      have hchars : allChars (.space :: fs) = ' ' :: allChars fs := rfl
      rw [hchars, words_space] at h
      -- a blank is no word, so the same words are left to read
      have hrest := spells_of_blank rfl h
      rw [hchars, lexFrom_blank total offset rfl, tokensAt]
      exact ih hfs hrest (by rw [width_space] at hwidth; change offset + 1 + width fs ≤ _; omega)
    | text s =>
      obtain ⟨kind, hkind⟩ := kindOf?_of_proper hf
      obtain ⟨c, cs, htext, -⟩ := kindOf?_eq_some_iff.mp hkind
      have hchars : allChars (.text s :: fs) = s.toList ++ allChars fs := rfl
      rw [hchars] at h ⊢
      -- that the text spells its words says that the longest match ends with the first of them
      obtain ⟨hnext, hrest⟩ := spells_text htext hkind h
      rw [width_text] at hwidth
      rw [tokensAt, Word.of_eq hkind, ← String.ofList_toList (s := s), String.toList_ofList, htext,
        List.cons_append, lexFrom_word total offset hnext (by rw [← htext]; omega),
        ih hfs hrest (by rw [← htext]; omega)]
      rfl

end Fragment

/-! ### Indentation -/

/-- Blanks in front are skipped. -/
theorem lexFrom_blanks (total : Nat) {blanks : List Char} (h : ∀ c ∈ blanks, isBlank c = true)
    (offset : Nat) (cs : List Char) :
    lexFrom total offset (blanks ++ cs) = lexFrom total (offset + Text.width blanks) cs := by
  induction blanks generalizing offset with
  | nil => rfl
  | cons c blanks ih =>
    obtain ⟨hc, hblanks⟩ := List.forall_mem_cons.mp h
    have hwidth : offset + Text.width [c] + Text.width blanks =
        offset + Text.width (c :: blanks) := by
      rw [Nat.add_assoc, ← Text.width_append]
      rfl
    rw [List.cons_append, lexFrom_blank total offset hc, ih hblanks, hwidth]

/-- White space that the lexer does not pass over is an error. -/
theorem lexFrom_errors_ne_nil (total offset : Nat) {c : Char} (h : Text.isBlank c = true)
    (hc : isBlank c = false) (cs : List Char) : (lexFrom total offset (c :: cs)).errors ≠ [] := by
  have hnext := next_of_textBlank h cs
  rw [hc, if_neg Bool.false_ne_true] at hnext
  rw [lexFrom, hnext]
  simp only
  split
  · exact List.cons_ne_nil _ _
  · exact List.cons_ne_nil _ _

/-- **The indentation of a text without errors** consists of blanks. -/
theorem isBlank_of_mem_indent (total : Nat) {offset : Nat} {cs : List Char}
    (h : (lexFrom total offset cs).errors = []) : ∀ c ∈ Text.indent cs, isBlank c = true := by
  induction cs generalizing offset with
  | nil => exact nofun
  | cons c cs ih =>
    by_cases hwhite : Text.isBlank c = true
    · have hblank : isBlank c = true := by
        by_contra hblank
        exact lexFrom_errors_ne_nil total offset hwhite (by simpa using hblank) cs h
      rw [lexFrom_blank total offset hblank] at h
      rw [Text.indent, List.takeWhile_cons_of_pos hwhite]
      exact List.forall_mem_cons.mpr ⟨hblank, ih h⟩
    · rw [Text.indent, List.takeWhile_cons_of_neg hwhite]
      exact nofun

/-- **The tokens of a printed tree behind its indentation.** -/
theorem lex_indented {blanks : List Char} (hblanks : ∀ c ∈ blanks, isBlank c = true) {e : Expr}
    (he : e.Printable) (hwidth : Text.width (blanks ++ e.print.toList) ≤ Span.limit) :
    lex (String.ofList (blanks ++ e.print.toList)) =
      ⟨Fragment.tokensAt (Text.width blanks) e.fragments, []⟩ := by
  rw [Text.width_append, e.toList_print] at hwidth
  rw [lex, String.toList_ofList, lexFrom_blanks _ hblanks, e.toList_print, Nat.zero_add]
  exact Fragment.lexFrom_layout _ (Expr.neat_fragments e he).proper
    (Expr.spells_fragments he) hwidth

end OperandOrder
