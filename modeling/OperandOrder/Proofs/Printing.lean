import Mathlib.Data.List.TakeWhile
import OperandOrder.Proofs.Frames
import OperandOrder.Proofs.Token.Spelling
import OperandOrder.Proofs.Whole

/-!
# Printed trees are read word by word

The output of a tree is a list of fragments, and each text among them is meant to be one word.
`Expr.sound_fragments` says that it is: the printed text falls into the words of the fragments,
whatever is behind it, as long as that carries no name and no number on.

What is put behind a fragment is always a space, a sign that ends words, or a point with a name
behind it. The one sign that could fuse with what follows it is `!`, which is why output never
begins with `=` (`Fragment.Sound`).
-/

namespace OperandOrder

open Lexeme

/-! ### Names and literals -/

/-- **A name:** a text that is an identifier on its own, hence no keyword. -/
def IsName (name : String) : Prop := kindOf? name = some .ident

/-- **A literal of a kind:** a text that is one on its own. -/
def IsLiteral (kind : LiteralKind) (text : String) : Prop :=
  (kindOf? text).bind TokenKind.literalKind? = some kind

/-- **A printable tree:** a whole one, with names and literals as they are read. -/
def Expr.Printable (e : Expr) : Prop := e.IsWhole IsName IsLiteral

/-- A reach takes a whole text if all its characters are of the class. -/
theorem reach_eq_length_iff {p : Char → Bool} {cs : List Char} :
    reach p cs = cs.length ↔ cs.all p = true := by
  rw [reach, List.all_eq_true, ← List.takeWhile_eq_self_iff]
  constructor
  · intro h
    exact (List.takeWhile_prefix p).eq_of_length h
  · intro h
    rw [h]

/-- A word is a name unless it is one of the three keywords. -/
theorem wordKind_eq_ident_iff {text : String} :
    wordKind text.toList = .ident ↔ text ≠ "true" ∧ text ≠ "false" ∧ text ≠ "null" := by
  unfold wordKind
  simp only [String.toList_inj]
  by_cases htrue : text = "true" <;> by_cases hfalse : text = "false" <;>
    by_cases hnull : text = "null" <;> simp [htrue, hfalse, hnull]

/-- **Names, letter by letter:** the first character begins a word, the others carry it on, and the
word is not a keyword. -/
theorem isName_iff {name : String} : IsName name ↔
    ∃ c cs, name.toList = c :: cs ∧ isWordStart c = true ∧ cs.all isWordChar = true ∧
      name ≠ "true" ∧ name ≠ "false" ∧ name ≠ "null" := by
  constructor
  · intro h
    obtain ⟨c, cs, hname, hnext⟩ := kindOf?_eq_some_iff.mp h
    rcases next_cases rfl hnext with ⟨hc, hreach, hk⟩ | ⟨-, -, hk⟩ | ⟨-, -, hk⟩ | ⟨-, -, hk⟩
    · rw [List.take_length, ← hname] at hk
      exact ⟨c, cs, hname, hc, reach_eq_length_iff.mp hreach.symm, wordKind_eq_ident_iff.mp hk.symm⟩
    · cases hk
    · cases hk
    · cases hk
  · rintro ⟨c, cs, hname, hc, hall, hword⟩
    refine kindOf?_eq_some_iff.mpr ⟨c, cs, hname, ?_⟩
    have hkind := wordKind_eq_ident_iff.mpr hword
    rw [next_of_isWordStart hc, reach_eq_length_iff.mpr hall, List.take_length, ← hname, hkind]

/-- Neither a name nor a literal begins with the sign that would fuse with `!`. -/
theorem ne_equals_of_hasText {text : String} {kind : TokenKind} (hkind : kind.hasText = true)
    (h : kindOf? text = some kind) : ∃ c cs, text.toList = c :: cs ∧ c ≠ '=' := by
  obtain ⟨c, cs, htext, hnext⟩ := kindOf?_eq_some_iff.mp h
  refine ⟨c, cs, htext, ?_⟩
  rintro rfl
  -- no word, no number and no literal between quotes begins with it
  rcases next_cases hkind hnext with ⟨hc, -⟩ | ⟨hc, -⟩ | ⟨hc, -⟩ | ⟨hc, -⟩
  · exact absurd hc (by decide)
  · exact absurd hc (by decide)
  · exact absurd hc (by decide)
  · exact absurd hc (by decide)

/-- A name is a text of which the kind is told by reading it. -/
theorem IsName.kind {name : String} (h : IsName name) : ∃ kind, kind.hasText = true ∧
    kindOf? name = some kind :=
  ⟨.ident, rfl, h⟩

/-- A literal is a text of which the kind is told by reading it. -/
theorem IsLiteral.kind {literal : LiteralKind} {text : String} (h : IsLiteral literal text) :
    ∃ kind, kind.hasText = true ∧ kindOf? text = some kind := by
  obtain ⟨kind, hkind, hliteral⟩ := Option.bind_eq_some_iff.mp h
  exact ⟨kind, by simp [TokenKind.hasText, hliteral], hkind⟩

/-! ### Fragments -/

namespace Fragment

/-- The characters of several fragments. -/
def allChars (fs : List Fragment) : List Char := fs.flatMap chars

/-- The words among several fragments. -/
def words (fs : List Fragment) : List Word :=
  fs.filterMap fun
    | .text s => some (.of s)
    | .space => none

@[simp] theorem allChars_append (fs gs : List Fragment) :
    allChars (fs ++ gs) = allChars fs ++ allChars gs :=
  List.flatMap_append

@[simp] theorem words_nil : words [] = [] := rfl

@[simp] theorem words_append (fs gs : List Fragment) : words (fs ++ gs) = words fs ++ words gs :=
  List.filterMap_append

@[simp] theorem words_text (s : String) (fs : List Fragment) :
    words (.text s :: fs) = .of s :: words fs := rfl

@[simp] theorem words_space (fs : List Fragment) : words (.space :: fs) = words fs := rfl

/-- **Fragments that are read as they were meant,** in front of any text of a certain kind. -/
def Spelled (ends : List Char → Prop) (fs : List Fragment) : Prop :=
  ∀ rest ws, ends rest → Spells rest ws → Spells (allChars fs ++ rest) (words fs ++ ws)

/-- Any text at all. -/
def Anything (_ : List Char) : Prop := True

/-- **One part behind another** is spelled, if the second ends the first. -/
theorem Spelled.append {ends ends' : List Char → Prop} {fs gs : List Fragment}
    (hf : Spelled ends fs) (hg : Spelled ends' gs)
    (hends : ∀ rest, ends' rest → ends (allChars gs ++ rest)) :
    Spelled ends' (fs ++ gs) := by
  intro rest ws hrest hspells
  rw [allChars_append, words_append, List.append_assoc, List.append_assoc]
  exact hf _ _ (hends rest hrest) (hg rest ws hrest hspells)

/-- What is spelled in front of some texts is spelled in front of fewer. -/
theorem Spelled.mono {ends ends' : List Char → Prop} {fs : List Fragment} (hf : Spelled ends fs)
    (hends : ∀ rest, ends' rest → ends rest) : Spelled ends' fs :=
  fun rest ws hrest hspells => hf rest ws (hends rest hrest) hspells

theorem spelled_space : Spelled Anything [.space] := fun _ _ _ hspells => hspells.space

/-- A text that is cut off by what is behind it. -/
theorem spelled_text {ends : List Char → Prop} {text : String} {c : Char} {cs : List Char}
    {kind : TokenKind} (htext : text.toList = c :: cs) (hkind : kindOf? text = some kind)
    (hnext : ∀ rest, ends rest → next c (cs ++ rest) = (.token kind, cs.length)) :
    Spelled ends [.text text] := by
  intro rest ws hrest hspells
  have hall : allChars [.text text] = text.toList := List.append_nil _
  rw [hall]
  exact .text htext hkind (hnext rest hrest) hspells

/-- A name or a literal. -/
theorem spelled_word {text : String} {kind : TokenKind} (hkind : kind.hasText = true)
    (h : kindOf? text = some kind) : Spelled Ends [.text text] := by
  obtain ⟨c, cs, htext, hnext⟩ := kindOf?_eq_some_iff.mp h
  have halone : next c (cs ++ []) = (.token kind, cs.length) := by rwa [List.append_nil]
  exact spelled_text htext h fun rest hrest => next_of_ends hkind halone hrest

/-- An operator is cut off by the space behind it. -/
theorem spelled_operator (op : BinaryOp) :
    Spelled (fun rest => ∃ cs, rest = ' ' :: cs) [.text op.symbol] := by
  cases op <;> exact spelled_text rfl rfl (by rintro _ ⟨cs, rfl⟩; rfl)

/-- A sign is cut off by anything but `=`, with which `!` would be read as one sign. -/
theorem spelled_unary (op : UnaryOp) :
    Spelled (fun rest => ∃ c cs, rest = c :: cs ∧ c ≠ '=') [.text op.symbol] := by
  cases op with
  | neg => exact spelled_text rfl rfl fun _ _ => rfl
  | plus => exact spelled_text rfl rfl fun _ _ => rfl
  | bitNot => exact spelled_text rfl rfl fun _ _ => rfl
  | not =>
    refine spelled_text rfl rfl ?_
    rintro _ ⟨c, cs, rfl, hc⟩
    have hsign : sign? '!' (c :: cs) = some (.bang, 0) := by simp [sign?, hc]
    have hnext : next '!' (c :: cs) = (.token .bang, 0) := by
      unfold next
      rw [hsign]
      rfl
    exact hnext

theorem spelled_open : Spelled Anything [.text "("] := spelled_text rfl rfl fun _ _ => rfl

theorem spelled_close : Spelled Anything [.text ")"] := spelled_text rfl rfl fun _ _ => rfl

theorem spelled_comma : Spelled Anything [.text ",", .space] :=
  (spelled_text rfl rfl fun _ _ => rfl : Spelled Anything [.text ","]).append spelled_space
    fun _ _ => trivial

theorem spelled_point : Spelled Anything [.text "."] := spelled_text rfl rfl fun _ _ => rfl

/-- A text with a space on either side. -/
theorem spelled_between {text : String}
    (h : Spelled (fun rest => ∃ cs, rest = ' ' :: cs) [.text text]) :
    Spelled Anything [.space, .text text, .space] :=
  spelled_space.append (h.append spelled_space fun rest _ => ⟨rest, rfl⟩) fun _ _ => trivial

theorem spelled_question : Spelled Anything [.space, .text "?", .space] :=
  spelled_between (spelled_text rfl rfl fun _ _ => rfl)

theorem spelled_colon : Spelled Anything [.space, .text ":", .space] :=
  spelled_between (spelled_text rfl rfl fun _ _ => rfl)

/-! ### Output that stands on its own -/

theorem ends_space (rest : List Char) : Ends (' ' :: rest) := ends_cons rfl

theorem ends_open (rest : List Char) : Ends ('(' :: rest) := ends_cons rfl

theorem ends_close (rest : List Char) : Ends (')' :: rest) := ends_cons rfl

theorem ends_comma (rest : List Char) : Ends (',' :: rest) := ends_cons rfl

/-- A point with a name behind it does not begin a fraction. -/
theorem ends_point {name : String} (h : IsName name) (rest : List Char) :
    Ends ('.' :: (name.toList ++ rest)) := by
  obtain ⟨c, cs, hname, hc, -⟩ := isName_iff.mp h
  rw [hname]
  refine ⟨fun d hd => ?_, fun d ds heq => ?_⟩
  · obtain rfl : '.' = d := Option.some.inj hd
    exact ⟨by decide, by decide, by decide⟩
  · obtain ⟨-, htail⟩ := List.cons.inj heq
    obtain ⟨rfl, -⟩ := List.cons.inj htail
    exact not_isDigit_of_isWordStart hc

/-- A point with a name behind it does not carry on what stands in front: no digit begins a name. -/
theorem ends_member {name : String} (h : IsName name) (fs : List Fragment) (rest : List Char) :
    Ends (allChars (.text "." :: .text name :: fs) ++ rest) := by
  change Ends ('.' :: (name.toList ++ allChars fs ++ rest))
  rw [List.append_assoc]
  exact ends_point h _

/-- **The output of a tree:** it is read as it was meant, and it does not begin with an
equals sign. -/
structure Sound (fs : List Fragment) : Prop where
  spelled : Spelled Ends fs
  begins : ∃ c cs, allChars fs = c :: cs ∧ c ≠ '='

/-- What a text begins with, the output begins with. -/
theorem begins_text {text : String} (h : ∃ c cs, text.toList = c :: cs ∧ c ≠ '=')
    (fs : List Fragment) : ∃ c cs, allChars (.text text :: fs) = c :: cs ∧ c ≠ '=' := by
  obtain ⟨c, cs, htext, hc⟩ := h
  refine ⟨c, cs ++ allChars fs, ?_, hc⟩
  rw [← List.cons_append, ← htext]
  rfl

/-- A part behind a sound one: what is to begin an output is decided by the first. -/
theorem Sound.append {fs gs : List Fragment} (hf : Sound fs) (hg : Spelled Ends gs)
    (hends : ∀ rest, Ends rest → Ends (allChars gs ++ rest)) : Sound (fs ++ gs) := by
  obtain ⟨c, cs, hchars, hc⟩ := hf.begins
  refine ⟨hf.spelled.append hg hends, c, cs ++ allChars gs, ?_, hc⟩
  rw [allChars_append, hchars, List.cons_append]

/-- What is in parentheses is sound. -/
theorem sound_parens {fs : List Fragment} (h : Spelled Ends fs) :
    Sound (.text "(" :: fs ++ [.text ")"]) := by
  refine ⟨?_, '(', allChars (fs ++ [.text ")"]), rfl, by decide⟩
  have hclosed : Spelled Anything (fs ++ [.text ")"]) :=
    h.append spelled_close fun rest _ => ends_close rest
  exact (spelled_open.append hclosed fun _ _ => trivial).mono fun _ _ => trivial

/-- What may be put in parentheses is sound with and without them. -/
theorem sound_wrap {fs : List Fragment} (h : Sound fs) (position : Position) (form : Form) :
    Sound (wrap position form fs) := by
  unfold wrap
  split
  · exact sound_parens h.spelled
  · exact h

end Fragment

/-! ### Trees -/

namespace Expr

open Fragment

/-- A tree that can be printed is there. -/
theorem Printable.ne_absent {e : Expr} (he : e.Printable) : e ≠ .absent := by
  rintro rfl
  exact he

/-- **What is in the slots of a printable tree** is printable, but for the receiver of a
plain call. -/
theorem printable_slots {e : Expr} (he : e.Printable) :
    ∀ s ∈ e.frame.slots, s.child = .absent ∨ s.child.Printable := by
  have hrow : ∀ {lead separator : List Fragment} {first others : Option Position} {es : List Expr},
      (∀ x ∈ es, x.Printable) → ∀ s ∈ Slot.row lead separator first others es,
        s.child = .absent ∨ s.child.Printable :=
    fun hes s hs => .inr (hes _ (Slot.mem_row hs))
  cases e with
  | call s receiver name args =>
    exact List.forall_mem_cons.mpr ⟨he.1, hrow fun x hx => areWhole_iff.mp he.2.2 x hx⟩
  | field s receiver name => exact List.forall_mem_singleton.mpr (.inr he.1)
  | unary s op operand => exact List.forall_mem_singleton.mpr (.inr he)
  | paren s inner => exact List.forall_mem_singleton.mpr (.inr he)
  | binary s op left right => exact hrow (forall_mem_pair he.1 he.2)
  | chain s op operands => exact hrow fun x hx => areWhole_iff.mp he.2 x hx
  | conditional s cond yes no =>
    exact List.forall_mem_cons.mpr ⟨.inr he.1, List.forall_mem_cons.mpr
      ⟨.inr he.2.1, List.forall_mem_singleton.mpr (.inr he.2.2)⟩⟩
  | _ => exact List.forall_mem_nil _

/-- **What holds of the output of a node,** whatever fitting outputs its children are given, holds
of the output of a tree. -/
theorem Printable.fragments {p : List Fragment → Prop}
    (hwrap : ∀ position form fs, p fs → p (wrap position form fs))
    (hfill : ∀ e : Expr, e.Printable → ∀ bodies, List.Forall₂ (Slot.Fits p) e.frame.slots bodies →
      p (e.frame.fill bodies)) {e : Expr} (he : e.Printable) : p e.fragments := by
  induction e using induct_slots with
  | step e ih =>
    rw [fragments_eq_fill]
    refine hfill e he _ ?_
    rw [bodies, List.forall₂_map_right_iff, List.forall₂_same]
    intro s hs
    exact Slot.fits_body hwrap fun hne => ih s hs ((printable_slots he s hs).resolve_left hne)

/-- **Outputs side by side:** behind each of them there is a separator, or what follows them all. -/
theorem sound_separated {separator : List Fragment} (hseparator : Spelled Anything separator)
    (hends : ∀ rest, Ends (allChars separator ++ rest)) {b : List Fragment} (hb : Sound b)
    {bs : List (List Fragment)} (hbs : ∀ x ∈ bs, Sound x) :
    Sound (b ++ bs.flatMap (separator ++ ·)) := by
  induction bs generalizing b with
  | nil => simpa using hb
  | cons x bs ih =>
    have hmore :=
      hb.append (hseparator.append (hbs x (by simp)).spelled fun _ _ => trivial) fun rest _ => by
      rw [allChars_append, List.append_assoc]
      exact hends _
    have hall := ih hmore fun y hy => hbs y (List.mem_cons_of_mem x hy)
    rwa [List.flatMap_cons, ← List.append_assoc]

/-- A name and the parenthesis behind it, with a receiver or without one. -/
theorem spelled_callee (receiver : Expr) {name : String} (hname : IsName name) :
    Spelled Anything (callee receiver name) := by
  have hopened : Spelled Anything ([.text name] ++ [.text "("]) :=
    (spelled_word rfl hname).append spelled_open fun rest _ => ends_open rest
  unfold callee
  split
  · exact hopened
  · exact spelled_point.append hopened fun _ _ => trivial

/-- The arguments of a call, from its name to its closing parenthesis. -/
theorem spelled_arguments (lead : List Fragment) {args : List Expr}
    (hargs : ∀ x ∈ args, x.Printable) {bodies : List (List Fragment)}
    (h : List.Forall₂ (Slot.Fits Sound) (Slot.row lead [.text ",", .space] none none args) bodies) :
    ∃ fs, Spelled Anything fs ∧
      weave ((Slot.row lead [.text ",", .space] none none args).map Slot.lead) bodies ++
        (if args = [] then lead ++ [.text ")"] else [.text ")"]) = lead ++ fs := by
  cases args with
  | nil =>
    obtain rfl := List.forall₂_nil_left_iff.mp h
    exact ⟨_, spelled_close, rfl⟩
  | cons arg args =>
    obtain ⟨b, bs, rfl, hlength, hb, hbs⟩ :=
      exists_of_fits_row (fun x hx => (hargs x hx).ne_absent) h
    have hall := sound_separated spelled_comma (fun rest => ends_comma _) hb hbs
    refine ⟨_, hall.spelled.append spelled_close fun rest _ => ends_close rest, ?_⟩
    rw [weave_row _ _ _ _ hlength, if_neg (List.cons_ne_nil arg args), List.append_assoc]

/-- The operands of a node. -/
theorem sound_operands (op : BinaryOp) {es : List Expr} (hne : es ≠ [])
    (hes : ∀ x ∈ es, x.Printable) {bodies : List (List Fragment)}
    (h : List.Forall₂ (Slot.Fits Sound) (operandSlots op es) bodies) :
    Sound (weave ((operandSlots op es).map Slot.lead) bodies ++ []) := by
  obtain ⟨e, es, rfl⟩ := List.exists_cons_of_ne_nil hne
  obtain ⟨b, bs, rfl, hlength, hb, hbs⟩ := exists_of_fits_row (fun x hx => (hes x hx).ne_absent) h
  rw [operandSlots, weave_row _ _ _ _ hlength, List.append_nil, List.nil_append]
  exact sound_separated (spelled_between (spelled_operator op)) (fun rest => ends_space _) hb hbs

/-- There is no word in the gap. -/
theorem words_signGap (op : UnaryOp) (operand : Form) : words (signGap op operand) = [] := by
  unfold signGap
  split <;> rfl

/-- A gap between two signs does no harm. -/
theorem sound_signGap (op : UnaryOp) (operand : Form) {fs : List Fragment} (h : Sound fs) :
    Sound (signGap op operand ++ fs) := by
  unfold signGap
  split
  · exact ⟨spelled_space.append h.spelled fun _ _ => trivial, ' ', _, rfl, by decide⟩
  · exact h

/-- **A node is read word by word,** whatever fitting outputs its children are given. -/
theorem sound_fill {e : Expr} (he : e.Printable) {bodies : List (List Fragment)}
    (h : List.Forall₂ (Slot.Fits Sound) e.frame.slots bodies) : Sound (e.frame.fill bodies) := by
  cases e with
  | absent => exact he.elim
  | error s => exact he.elim
  | literal s literal text =>
    obtain rfl := List.forall₂_nil_left_iff.mp h
    obtain ⟨kind, hkind, htext⟩ := IsLiteral.kind he
    exact ⟨spelled_word hkind htext, begins_text (ne_equals_of_hasText hkind htext) []⟩
  | ident s name =>
    obtain rfl := List.forall₂_nil_left_iff.mp h
    exact ⟨spelled_word rfl he, begins_text (ne_equals_of_hasText rfl he) []⟩
  | call s receiver name args =>
    obtain ⟨hwhole, hname, hwholes⟩ := he
    obtain ⟨r, as, hr, has, rfl⟩ := List.forall₂_cons_left_iff.mp h
    have hcallee := spelled_callee receiver hname
    obtain ⟨fs, hfs, hrest⟩ := spelled_arguments _ (fun x hx => areWhole_iff.mp hwholes x hx) has
    have hcall : Spelled Anything (callee receiver name ++ fs) :=
      hcallee.append hfs fun _ _ => trivial
    have hfill : (call s receiver name args).frame.fill (r :: as) =
        r ++ (callee receiver name ++ fs) := by
      rw [Frame.fill, Frame.leads, frame, List.map_cons, weave_cons, List.nil_append,
        List.append_assoc, hrest]
    rw [hfill]
    by_cases hplain : receiver = .absent
    · -- nothing stands in front of the name
      rw [hr.nothing hplain, List.nil_append]
      refine ⟨hcall.mono fun _ _ => trivial, ?_⟩
      rw [callee, if_pos hplain]
      exact begins_text (ne_equals_of_hasText rfl hname) _
    · refine (hr.output hplain).append (hcall.mono fun _ _ => trivial) fun rest _ => ?_
      rw [callee, if_neg hplain]
      exact ends_member hname _ rest
  | field s receiver name =>
    obtain ⟨r, as, hr, has, rfl⟩ := List.forall₂_cons_left_iff.mp h
    obtain rfl := List.forall₂_nil_left_iff.mp has
    have hmember : Spelled Ends ([.text "."] ++ [.text name]) :=
      spelled_point.append (spelled_word rfl he.2) fun _ _ => trivial
    have hfill :=
      (hr.output (Printable.ne_absent he.1)).append hmember fun rest _ => ends_member he.2 [] rest
    simpa [Frame.fill, Frame.leads, frame] using hfill
  | unary s op operand =>
    obtain ⟨o, as, ho, has, rfl⟩ := List.forall₂_cons_left_iff.mp h
    obtain rfl := List.forall₂_nil_left_iff.mp has
    have hbehind := sound_signGap op operand.form (ho.output (Printable.ne_absent he))
    obtain ⟨c, cs, hchars, hc⟩ := hbehind.begins
    have hsymbol : ∃ d ds, op.symbol.toList = d :: ds ∧ d ≠ '=' := by
      cases op <;> exact ⟨_, _, rfl, by decide⟩
    -- the sign is followed by the gap or by the operand, and neither begins with an equals sign
    have hfill : (unary s op operand).frame.fill [o] =
        [.text op.symbol] ++ (signGap op operand.form ++ o) := by
      simp [Frame.fill, Frame.leads, frame]
    rw [hfill]
    refine ⟨(spelled_unary op).append hbehind.spelled fun rest _ => ?_, begins_text hsymbol _⟩
    rw [hchars]
    exact ⟨c, cs ++ rest, rfl, hc⟩
  | paren s inner =>
    obtain ⟨i, as, hi, has, rfl⟩ := List.forall₂_cons_left_iff.mp h
    obtain rfl := List.forall₂_nil_left_iff.mp has
    have hfill := sound_parens (hi.output (Printable.ne_absent he)).spelled
    simpa [Frame.fill, Frame.leads, frame] using hfill
  | binary s op left right =>
    exact sound_operands op (List.cons_ne_nil left [right]) (forall_mem_pair he.1 he.2) h
  | chain s op operands =>
    obtain ⟨hlength, hwholes⟩ := he
    have hne : operands ≠ [] := by
      rintro rfl
      exact absurd hlength (by decide)
    exact sound_operands op hne (fun x hx => areWhole_iff.mp hwholes x hx) h
  | conditional s cond yes no =>
    obtain ⟨c, as, hc, has, rfl⟩ := List.forall₂_cons_left_iff.mp h
    obtain ⟨y, bs, hy, hbs, rfl⟩ := List.forall₂_cons_left_iff.mp has
    obtain ⟨n, cs, hn, hcs, rfl⟩ := List.forall₂_cons_left_iff.mp hbs
    obtain rfl := List.forall₂_nil_left_iff.mp hcs
    have hno : Spelled Ends ([.space, .text ":", .space] ++ n) :=
      spelled_colon.append (hn.output (Printable.ne_absent he.2.2)).spelled fun _ _ => trivial
    have hyes : Spelled Ends (y ++ ([.space, .text ":", .space] ++ n)) :=
      (hy.output (Printable.ne_absent he.2.1)).spelled.append hno fun rest _ => ends_space _
    have hfill := (hc.output (Printable.ne_absent he.1)).append
      (spelled_question.append hyes fun _ _ => trivial) fun rest _ => ends_space _
    simpa [Frame.fill, Frame.leads, frame] using hfill

/-- **Printed trees are read word by word.** -/
theorem sound_fragments (e : Expr) (he : e.Printable) : Sound e.fragments :=
  Printable.fragments (fun position form _ h => sound_wrap h position form)
    (fun _ he _ h => sound_fill he h) he

/-- What is printed is the output, character by character. -/
theorem toList_print (e : Expr) : e.print.toList = allChars e.fragments := String.toList_ofList

/-- **A printed tree falls into the words of its output.** -/
theorem spells_fragments {e : Expr} (he : e.Printable) :
    Spells (allChars e.fragments) (words e.fragments) := by
  have hspelled := (e.sound_fragments he).spelled [] [] ends_nil .nil
  rwa [List.append_nil, List.append_nil] at hspelled

end Expr

end OperandOrder
