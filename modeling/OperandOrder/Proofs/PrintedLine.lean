import OperandOrder.Host.Lines
import OperandOrder.Proofs.Printing

/-!
# A printed tree is one line

The text of a printable tree is put into a file as a line of its own. So it must not be taken for
anything else there: it has no line feed in it, it does not end like a terminator, and it does not
begin with white space or like a comment (`Expr.oneLine_print`).

All of this is about the fragments of the output. Each of them is a space, one of a few signs, or a
name or a literal; the first is a text that may begin an expression and the last is one that may
close it (`Expr.neat_fragments`).
-/

namespace OperandOrder

open Lexeme

/-! ### White space begins no token -/

/-- A letter is no white space. -/
theorem not_textBlank_of_isAlpha {c : Char} (h : c.isAlpha = true) : Text.isBlank c = false := by
  rw [isAlpha_iff] at h
  simp only [Char.le_def, UInt32.le_iff_toNat_le] at h
  change (65 ≤ c.toNat ∧ c.toNat ≤ 90) ∨ (97 ≤ c.toNat ∧ c.toNat ≤ 122) at h
  simp only [Text.isBlank, Text.blankRanges, List.any_cons, List.any_nil, Bool.or_false,
    Bool.or_eq_false_iff, Bool.and_eq_false_iff, decide_eq_false_iff_not]
  omega

/-- A digit is no white space. -/
theorem not_textBlank_of_isDigit {c : Char} (h : c.isDigit = true) : Text.isBlank c = false := by
  rw [isDigit_iff] at h
  simp only [Char.le_def, UInt32.le_iff_toNat_le] at h
  change 48 ≤ c.toNat ∧ c.toNat ≤ 57 at h
  simp only [Text.isBlank, Text.blankRanges, List.any_cons, List.any_nil, Bool.or_false,
    Bool.or_eq_false_iff, Bool.and_eq_false_iff, decide_eq_false_iff_not]
  omega

theorem not_textBlank_of_sign? {c : Char} {cs : List Char} {kind : TokenKind} {n : Nat}
    (h : sign? c cs = some (kind, n)) : Text.isBlank c = false := by
  unfold sign? at h
  split at h <;> first | rfl | exact nomatch h

/-- **White space begins no token:** where the lexer does not pass over it, it is an error. -/
theorem next_of_textBlank {c : Char} (h : Text.isBlank c = true) (cs : List Char) :
    next c cs = if isBlank c then (.blank, 0) else (.invalid, 0) := by
  -- a blank of any script begins no word, number, quotation or sign
  have hword : isWordStart c = false := by
    by_contra hword
    simp only [Bool.not_eq_false, isWordStart, Bool.or_eq_true, beq_iff_eq] at hword
    rcases hword with (hword | rfl) | rfl
    · rw [not_textBlank_of_isAlpha hword] at h
      exact nomatch h
    · exact nomatch h
    · exact nomatch h
  have hdigit : c.isDigit = false := by
    by_contra hdigit
    rw [not_textBlank_of_isDigit (by simpa using hdigit)] at h
    exact nomatch h
  have hquote : (c == '\x22') = false := by
    by_contra hquote
    obtain rfl : c = '\x22' := by simpa using hquote
    exact nomatch h
  have hquote' : (c == '\x27') = false := by
    by_contra hquote
    obtain rfl : c = '\x27' := by simpa using hquote
    exact nomatch h
  have hsign : sign? c cs = none := by
    cases hsign : sign? c cs with
    | none => rfl
    | some found =>
      rw [not_textBlank_of_sign? hsign] at h
      exact nomatch h
  unfold next
  rw [hword, hdigit, hquote, hquote', hsign]
  rfl

/-! ### The characters of names and literals -/

/-- A character that carries nothing on is not within reach. -/
theorem Lexeme.Local.not_mem {g : List Char → Nat} (hg : Local g) {cs : List Char}
    (h : g cs = cs.length) {x : Char}
    (hx : (isWordChar x || x == '+' || x == '-' || x == '.') = false) : x ∉ cs := by
  intro hmem
  obtain ⟨before, behind, rfl⟩ := List.append_of_mem hmem
  have hle : g (before ++ []) ≤ before.length := by simpa using hg.le_length before
  have hsame := hg.agree before [] (x :: behind) hle (ends_cons hx)
  rw [h] at hsame
  simp only [List.length_append, List.length_cons] at hsame
  omega

/-- A literal between quotes has no line feed inside and ends with its quote. -/
theorem quotedReach?_eq_length {quote : Char} (hquote : quote ≠ '\n') : ∀ cs : List Char,
    quotedReach? quote cs = some cs.length → '\n' ∉ cs ∧ cs.getLast? = some quote
  | [], h => nomatch h
  | c :: cs, h => by
    rw [quotedReach?_cons] at h
    split at h
    next hc =>
      obtain rfl : c = quote := eq_of_beq hc
      obtain rfl : cs = [] := by simpa using h
      exact ⟨by simpa using hquote.symm, rfl⟩
    next =>
      split at h
      next => exact nomatch h
      next hline =>
        split at h
        next hback =>
          cases cs with
          | nil => exact nomatch h
          | cons d ds =>
            simp only at h
            split at h
            next => exact nomatch h
            next hd =>
              -- the escaped character goes with its backslash
              obtain ⟨n, hn, hsum⟩ := Option.map_eq_some_iff.mp h
              obtain rfl : n = ds.length := by simpa using hsum
              obtain ⟨hnone, hlast⟩ := quotedReach?_eq_length hquote ds hn
              simp only [beq_iff_eq] at hline hd
              exact ⟨by simp [hnone, Ne.symm hline, Ne.symm hd],
                by simp [List.getLast?_cons, hlast]⟩
        next =>
          obtain ⟨n, hn, hsum⟩ := Option.map_eq_some_iff.mp h
          obtain rfl : n = cs.length := by simpa using hsum
          obtain ⟨hnone, hlast⟩ := quotedReach?_eq_length hquote cs hn
          simp only [beq_iff_eq] at hline
          exact ⟨by simp [hnone, Ne.symm hline], by simp [List.getLast?_cons, hlast]⟩
termination_by cs => cs.length

/-- **What a text may be in the middle of a line and at its end.** -/
structure WithinLine (cs : List Char) : Prop where
  lineFeed : '\n' ∉ cs
  last : ∀ c ∈ cs.getLast?, Lines.isEnding c = false

/-- Text without any character of a terminator. -/
theorem withinLine_of_forall {cs : List Char} (h : ∀ c ∈ cs, Lines.isEnding c = false) :
    WithinLine cs :=
  ⟨fun hmem => absurd (h _ hmem) (by decide), fun c hc => h c (List.mem_of_mem_getLast? hc)⟩

/-- A local reach of word characters stays within a line. -/
theorem withinLine_of_local {g : List Char → Nat} (hg : Local g) {c : Char} {cs : List Char}
    (h : g cs = cs.length) (hc : isWordChar c = true) : WithinLine (c :: cs) := by
  refine withinLine_of_forall fun x hx => ?_
  by_contra hending
  simp only [Bool.not_eq_false, Lines.isEnding, Bool.or_eq_true, beq_iff_eq] at hending
  rcases List.mem_cons.mp hx with rfl | hx
  · rcases hending with rfl | rfl <;> exact absurd hc (by decide)
  · rcases hending with rfl | rfl <;> exact hg.not_mem h (by decide) hx

/-- **Names and literals stay within a line.** -/
theorem withinLine_of_hasText {text : String} {kind : TokenKind} (hkind : kind.hasText = true)
    (h : kindOf? text = some kind) : WithinLine text.toList := by
  obtain ⟨c, cs, htext, hnext⟩ := kindOf?_eq_some_iff.mp h
  -- a quotation has no line feed in it, and its last character is the quote
  have hquoted : ∀ quote : Char, Lines.isEnding quote = false →
      quotedReach? quote cs = some cs.length → WithinLine (quote :: cs) := by
    intro quote hquote hreach
    have hne : quote ≠ '\n' := by
      rintro rfl
      exact nomatch hquote
    obtain ⟨hnone, hlast⟩ := quotedReach?_eq_length hne cs hreach
    refine ⟨by simp [hnone, hne.symm], fun d hd => ?_⟩
    rw [List.getLast?_cons, hlast] at hd
    obtain rfl : quote = d := Option.some.inj hd
    exact hquote
  rw [htext]
  rcases next_cases hkind hnext with ⟨hc, hn, -⟩ | ⟨hc, hn, -⟩ | ⟨rfl, hn, -⟩ | ⟨rfl, hn, -⟩
  · exact withinLine_of_local local_wordChars hn.symm (isWordChar_of_isWordStart hc)
  · exact withinLine_of_local (local_numberReach c) hn.symm (isWordChar_of_isDigit hc)
  · exact hquoted _ rfl hn
  · exact hquoted _ rfl hn

/-! ### The fragments of an output -/

/-- The signs that an expression may begin with. -/
def openers : List String := "(" :: UnaryOp.all.map UnaryOp.symbol

/-- All the signs that are printed. -/
def signs : List String := openers ++ [")", ",", ".", "?", ":"] ++ BinaryOp.all.map BinaryOp.symbol

/-- A name or a literal. -/
def IsTerm (text : String) : Prop := ∃ kind, kind.hasText = true ∧ kindOf? text = some kind

theorem IsName.isTerm {name : String} (h : IsName name) : IsTerm name := h.kind

namespace Fragment

/-- **A fragment of an output:** a space, a sign, or a name or a literal. -/
def Proper : Fragment → Prop
  | .space => True
  | .text s => s ∈ signs ∨ IsTerm s

/-- **The output of a tree,** as far as a line is concerned. -/
structure Neat (fs : List Fragment) : Prop where
  proper : ∀ f ∈ fs, f.Proper
  opens : ∃ s gs, fs = .text s :: gs ∧ (s ∈ openers ∨ IsTerm s)
  closes : ∃ gs s, fs = gs ++ [.text s] ∧ (s = ")" ∨ IsTerm s)

theorem proper_sign {s : String} (h : s ∈ signs) : Proper (.text s) := .inl h

/-- A sign between spaces. -/
theorem proper_spaced {s : String} (h : s ∈ signs) : ∀ f ∈ [space, text s, space], f.Proper := by
  simp only [List.forall_mem_cons]
  exact ⟨trivial, proper_sign h, trivial, nofun⟩

theorem proper_gap (op : BinaryOp) : ∀ f ∈ [space, text op.symbol, space], f.Proper :=
  proper_spaced (by cases op <;> decide)

theorem neat_term {s : String} (h : IsTerm s) : Neat [.text s] :=
  ⟨List.forall_mem_singleton.mpr (.inr h), ⟨s, [], rfl, .inr h⟩, ⟨[], s, rfl, .inr h⟩⟩

/-- One output behind another one. -/
theorem Neat.append {fs gs between : List Fragment} (hf : Neat fs) (hg : Neat gs)
    (h : ∀ f ∈ between, f.Proper) : Neat (fs ++ between ++ gs) := by
  obtain ⟨s, fs', rfl, hs⟩ := hf.opens
  obtain ⟨gs', s', rfl, hs'⟩ := hg.closes
  refine ⟨?_, ⟨s, _, rfl, hs⟩, ⟨_, s', (List.append_assoc _ gs' _).symm, hs'⟩⟩
  exact List.forall_mem_append.mpr ⟨List.forall_mem_append.mpr ⟨hf.proper, h⟩, hg.proper⟩

theorem neat_parens {fs : List Fragment} (h : ∀ f ∈ fs, f.Proper) :
    Neat (.text "(" :: fs ++ [.text ")"]) := by
  refine ⟨?_, ⟨"(", _, rfl, .inl (by decide)⟩, ⟨_, ")", rfl, .inl rfl⟩⟩
  simp only [List.forall_mem_append, List.forall_mem_cons]
  exact ⟨⟨proper_sign (by decide), h⟩, proper_sign (by decide), nofun⟩

/-- An operand behind a sign. -/
theorem Neat.unary {fs gap : List Fragment} (h : Neat fs) (op : UnaryOp)
    (hgap : ∀ f ∈ gap, f.Proper) : Neat (.text op.symbol :: gap ++ fs) := by
  have hop : op.symbol ∈ openers := by cases op <;> decide
  have hsign : op.symbol ∈ signs := by cases op <;> decide
  obtain ⟨gs, t, rfl, ht⟩ := h.closes
  refine ⟨?_, ⟨op.symbol, _, rfl, .inl hop⟩, ⟨_, t, (List.append_assoc _ gs _).symm, ht⟩⟩
  rw [List.forall_mem_append, List.forall_mem_cons]
  exact ⟨⟨proper_sign hsign, hgap⟩, h.proper⟩

/-- What is neat is neat in parentheses. -/
theorem neat_wrap {fs : List Fragment} (h : Neat fs) (position : Position) (form : Form) :
    Neat (wrap position form fs) := by
  unfold wrap
  split
  · exact neat_parens h.proper
  · exact h

end Fragment

namespace Expr

open Fragment

/-- Outputs side by side. -/
theorem neat_separated {separator : List Fragment} (hseparator : ∀ f ∈ separator, f.Proper)
    {b : List Fragment} (hb : Neat b) {bs : List (List Fragment)} (hbs : ∀ x ∈ bs, Neat x) :
    Neat (b ++ bs.flatMap (separator ++ ·)) := by
  induction bs generalizing b with
  | nil => simpa using hb
  | cons x bs ih =>
    have hmore :=
      ih (hb.append (hbs x (by simp)) hseparator) fun y hy => hbs y (List.mem_cons_of_mem x hy)
    rwa [List.flatMap_cons, ← List.append_assoc, ← List.append_assoc]

/-- The operands of a node. -/
theorem neat_operands (op : BinaryOp) {es : List Expr} (hne : es ≠ []) (hes : ∀ x ∈ es, x.Printable)
    {bodies : List (List Fragment)}
    (h : List.Forall₂ (Slot.Fits Neat) (operandSlots op es) bodies) :
    Neat (weave ((operandSlots op es).map Slot.lead) bodies ++ []) := by
  obtain ⟨e, es, rfl⟩ := List.exists_cons_of_ne_nil hne
  obtain ⟨b, bs, rfl, hlength, hb, hbs⟩ := exists_of_fits_row (fun x hx => (hes x hx).ne_absent) h
  rw [operandSlots, weave_row _ _ _ _ hlength, List.append_nil, List.nil_append]
  exact neat_separated (proper_gap op) hb hbs

/-- The arguments of a call, between its parentheses. -/
theorem proper_arguments (lead : List Fragment) {args : List Expr} (hargs : ∀ x ∈ args, x.Printable)
    {bodies : List (List Fragment)}
    (h : List.Forall₂ (Slot.Fits Neat) (Slot.row lead [.text ",", .space] none none args) bodies) :
    ∃ fs, (∀ f ∈ fs, f.Proper) ∧
      weave ((Slot.row lead [.text ",", .space] none none args).map Slot.lead) bodies ++
        (if args = [] then lead ++ [.text ")"] else [.text ")"]) = lead ++ (fs ++ [.text ")"]) := by
  cases args with
  | nil =>
    obtain rfl := List.forall₂_nil_left_iff.mp h
    exact ⟨[], List.forall_mem_nil _, rfl⟩
  | cons arg args =>
    obtain ⟨b, bs, rfl, hlength, hb, hbs⟩ :=
      exists_of_fits_row (fun x hx => (hargs x hx).ne_absent) h
    have hcomma : ∀ f ∈ [Fragment.text ",", .space], f.Proper :=
      List.forall_mem_cons.mpr ⟨proper_sign (by decide), List.forall_mem_singleton.mpr trivial⟩
    refine ⟨_, (neat_separated hcomma hb hbs).proper, ?_⟩
    rw [weave_row _ _ _ _ hlength, if_neg (List.cons_ne_nil arg args), List.append_assoc]

/-- **A node is neat,** whatever fitting outputs its children are given. -/
theorem neat_fill {e : Expr} (he : e.Printable) {bodies : List (List Fragment)}
    (h : List.Forall₂ (Slot.Fits Neat) e.frame.slots bodies) : Neat (e.frame.fill bodies) := by
  have hpoint : ∀ f ∈ [Fragment.text "."], f.Proper :=
    List.forall_mem_singleton.mpr (proper_sign (by decide))
  -- what stands between the children is proper, and so are they
  cases e with
  | absent => exact he.elim
  | error s => exact he.elim
  | literal s literal text =>
    obtain rfl := List.forall₂_nil_left_iff.mp h
    exact neat_term (IsLiteral.kind he)
  | ident s name =>
    obtain rfl := List.forall₂_nil_left_iff.mp h
    exact neat_term (IsName.isTerm he)
  | call s receiver name args =>
    obtain ⟨-, hname, hwholes⟩ := he
    obtain ⟨r, as, hr, has, rfl⟩ := List.forall₂_cons_left_iff.mp h
    obtain ⟨fs, hfs, hrest⟩ := proper_arguments (callee receiver name)
      (fun x hx => areWhole_iff.mp hwholes x hx) has
    have hnothing : ∀ f ∈ ([] : List Fragment), f.Proper := List.forall_mem_nil _
    have hcall : Neat ([.text name] ++ [] ++ (.text "(" :: fs ++ [.text ")"])) :=
      (neat_term hname.isTerm).append (neat_parens hfs) hnothing
    rw [Frame.fill, Frame.leads, frame, List.map_cons, weave_cons, List.nil_append,
      List.append_assoc, hrest, callee]
    by_cases hplain : receiver = .absent
    · rw [if_pos hplain, hr.nothing hplain]
      exact hcall
    · rw [if_neg hplain]
      have hmethod := (hr.output hplain).append hcall hpoint
      simpa using hmethod
  | field s receiver name =>
    obtain ⟨r, as, hr, has, rfl⟩ := List.forall₂_cons_left_iff.mp h
    obtain rfl := List.forall₂_nil_left_iff.mp has
    have hmember := (hr.output (Printable.ne_absent he.1)).append (neat_term he.2.isTerm) hpoint
    simpa [Frame.fill, Frame.leads, frame] using hmember
  | unary s op operand =>
    obtain ⟨o, as, ho, has, rfl⟩ := List.forall₂_cons_left_iff.mp h
    obtain rfl := List.forall₂_nil_left_iff.mp has
    have hgap : ∀ f ∈ signGap op operand.form, f.Proper := by
      unfold signGap
      split
      · exact List.forall_mem_singleton.mpr trivial
      · exact List.forall_mem_nil _
    have hsigned := (ho.output (Printable.ne_absent he)).unary op hgap
    simpa [Frame.fill, Frame.leads, frame] using hsigned
  | paren s inner =>
    obtain ⟨i, as, hi, has, rfl⟩ := List.forall₂_cons_left_iff.mp h
    obtain rfl := List.forall₂_nil_left_iff.mp has
    have hparens := neat_parens (hi.output (Printable.ne_absent he)).proper
    simpa [Frame.fill, Frame.leads, frame] using hparens
  | binary s op left right =>
    exact neat_operands op (List.cons_ne_nil left [right]) (forall_mem_pair he.1 he.2) h
  | chain s op operands =>
    obtain ⟨hlength, hwholes⟩ := he
    have hne : operands ≠ [] := by
      rintro rfl
      exact absurd hlength (by decide)
    exact neat_operands op hne (fun x hx => areWhole_iff.mp hwholes x hx) h
  | conditional s cond yes no =>
    obtain ⟨c, as, hc, has, rfl⟩ := List.forall₂_cons_left_iff.mp h
    obtain ⟨y, bs, hy, hbs, rfl⟩ := List.forall₂_cons_left_iff.mp has
    obtain ⟨n, cs, hn, hcs, rfl⟩ := List.forall₂_cons_left_iff.mp hbs
    obtain rfl := List.forall₂_nil_left_iff.mp hcs
    have hboth := (hc.output (Printable.ne_absent he.1)).append
      (hy.output (Printable.ne_absent he.2.1)) (proper_spaced (s := "?") (by decide))
    have hall := hboth.append (hn.output (Printable.ne_absent he.2.2))
      (proper_spaced (s := ":") (by decide))
    simpa [Frame.fill, Frame.leads, frame] using hall

/-- **The output of a printable tree is neat.** -/
theorem neat_fragments (e : Expr) (he : e.Printable) : Neat e.fragments :=
  Printable.fragments (fun position form _ h => neat_wrap h position form)
    (fun _ he _ h => neat_fill he h) he

/-! ### The line -/

/-- A fragment does not break the line. -/
theorem lineFeed_not_mem {f : Fragment} (hf : f.Proper) : '\n' ∉ f.chars := by
  cases f with
  | space => decide
  | text s =>
    rcases hf with hs | ⟨kind, hkind, hs⟩
    · have hall : ∀ s ∈ signs, '\n' ∉ s.toList := by decide
      exact hall s hs
    · exact (withinLine_of_hasText hkind hs).lineFeed

/-- What an expression begins with is no white space and no comment. -/
theorem head_of_opens {s : String} (h : s ∈ openers ∨ IsTerm s) :
    ∃ c cs, s.toList = c :: cs ∧ Text.isBlank c = false ∧ c ≠ '/' := by
  rcases h with hs | ⟨kind, hkind, hs⟩
  · have hall : ∀ s ∈ openers, ∃ c cs, s.toList = c :: cs ∧ Text.isBlank c = false ∧ c ≠ '/' := by
      simp only [openers, UnaryOp.all, List.map_cons, List.map_nil, List.forall_mem_cons]
      exact ⟨⟨_, _, rfl, rfl, by decide⟩, ⟨_, _, rfl, rfl, by decide⟩, ⟨_, _, rfl, rfl, by decide⟩,
        ⟨_, _, rfl, rfl, by decide⟩, ⟨_, _, rfl, rfl, by decide⟩, nofun⟩
    exact hall s hs
  · obtain ⟨c, cs, htext, hnext⟩ := kindOf?_eq_some_iff.mp hs
    refine ⟨c, cs, htext, ?_, ?_⟩
    · -- white space begins no token
      by_contra hblank
      rw [next_of_textBlank (by simpa using hblank)] at hnext
      split at hnext <;> exact nomatch (Prod.mk.inj hnext).1
    · rintro rfl
      obtain rfl : TokenKind.operator .div = kind := Lexeme.token.inj (Prod.mk.inj hnext).1
      exact nomatch hkind

/-- What an expression ends with is no part of a terminator. -/
theorem last_of_closes {s : String} (h : s = ")" ∨ IsTerm s) :
    ∃ c, s.toList.getLast? = some c ∧ Lines.isEnding c = false := by
  rcases h with rfl | ⟨kind, hkind, hs⟩
  · exact ⟨')', rfl, rfl⟩
  · obtain ⟨c, cs, htext, -⟩ := kindOf?_eq_some_iff.mp hs
    have hlast := (withinLine_of_hasText hkind hs).last
    rw [htext] at hlast ⊢
    exact ⟨_, List.getLast?_cons, hlast _ List.getLast?_cons⟩

/-- **A text that makes a line of its own,** behind any indentation and before any terminator. -/
structure OneLine (cs : List Char) : Prop extends WithinLine cs where
  head : ∃ c ds, cs = c :: ds ∧ Text.isBlank c = false ∧ c ≠ '/'

/-- **A printed tree is one line.** -/
theorem oneLine_print (e : Expr) (he : e.Printable) : OneLine e.print.toList := by
  -- no fragment has a line feed in it, and the first and last character are no blanks
  have hneat := neat_fragments e he
  have hchars := e.toList_print
  rw [hchars]
  refine ⟨⟨?_, ?_⟩, ?_⟩
  · intro hmem
    obtain ⟨f, hf, hchar⟩ := List.mem_flatMap.mp hmem
    exact lineFeed_not_mem (hneat.proper f hf) hchar
  · obtain ⟨gs, s, hfs, hs⟩ := hneat.closes
    have hlast : allChars e.fragments = allChars gs ++ s.toList := by
      rw [hfs, allChars_append]
      exact congrArg (allChars gs ++ ·) (List.append_nil s.toList)
    obtain ⟨c, hc, hending⟩ := last_of_closes hs
    rw [hlast, List.getLast?_append, hc]
    intro d hd
    obtain rfl : c = d := Option.some.inj hd
    exact hending
  · obtain ⟨s, gs, hfs, hs⟩ := hneat.opens
    obtain ⟨c, cs, htext, hc⟩ := head_of_opens hs
    have hfirst : allChars e.fragments = c :: (cs ++ allChars gs) := by
      rw [hfs, ← List.cons_append, ← htext]
      rfl
    exact ⟨c, _, hfirst, hc⟩

end Expr

end OperandOrder
