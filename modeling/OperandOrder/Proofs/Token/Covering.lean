import OperandOrder.Proofs.Token.LongestMatch

/-!
# Nothing is skipped and nothing is read twice

The spans of tokens and errors are pieces of the source that do not meet, and every byte that is in
none of them is a blank: `lex_covers`. So whatever the text is, a lexeme that is given up halfway
leaves the reading where the lexeme that was taken ends.

`Lexed.Covers source offset out` says this of what is read from a place on, where `out` covers the
source from that place to its end. Reading goes on behind each piece, so a piece is put in front of
what covers the rest, and it begins where it is put (`Lexed.Covers.consToken`,
`Lexed.Covers.consError`). A quote that is never closed is put in front of nothing: its span reaches
to the end.
-/

namespace OperandOrder

open Lexeme

/-- Whether a byte is one of the span. -/
def Span.HasByte (s : Span) (b : Nat) : Prop := s.start ≤ b ∧ b < s.stop

/-- **A slice:** the text `w` stands at the bytes of `span`. -/
def Text.Slice (source : List Char) (span : Span) (w : List Char) : Prop :=
  ∃ rest, Text.Stands source span.start w rest ∧ span.stop = span.start + Text.width w

/-- The byte is a blank. -/
def Text.BlankAt (source : List Char) (b : Nat) : Prop :=
  ∃ c rest, c ∈ [' ', '\t', '\r', '\n', '\x0c'] ∧ Text.Stands source b [c] rest

/-- **What an error marks:** one character, or all that follows an open quote. -/
inductive ParseError.Marks (source : List Char) : ParseError → Prop
  | invalid {c : Char} {span : Span} (h : Text.Slice source span [c]) :
    Marks source (.invalidCharacter (String.singleton c) span)
  | unterminated {c : Char} {rest : List Char} {start : Nat} (hquote : isQuote c = true)
    (h : Text.Stands source start [c] rest) :
    Marks source (.unterminatedLiteral ⟨start, Text.width source⟩)

namespace Text

variable {source w rest : List Char} {offset : Nat} {span : Span}

theorem Stands.le_width (h : Stands source offset w rest) : offset + width w ≤ width source := by
  obtain ⟨before, rfl, rfl⟩ := h
  simp only [width_append]
  omega

theorem Slice.stop_le (h : Slice source span w) : span.stop ≤ width source := by
  obtain ⟨rest, hstands, hstop⟩ := h
  rw [hstop]
  exact hstands.le_width

/-- A text that is not empty has a width. -/
theorem width_pos (hw : w ≠ []) : 0 < width w := by
  obtain ⟨c, w, rfl⟩ := List.exists_cons_of_ne_nil hw
  have hpos := c.utf8Size_pos
  rw [width_cons]
  omega

theorem width_blank {c : Char} (hc : Lexeme.isBlank c = true) : width [c] = 1 := by
  simp only [Lexeme.isBlank, Bool.or_eq_true, beq_iff_eq] at hc
  rcases hc with (((rfl | rfl) | rfl) | rfl) | rfl <;> rfl

end Text

theorem ParseError.Marks.stop_le {source : List Char} {e : ParseError} (h : e.Marks source) :
    e.span.stop ≤ Text.width source := by
  cases h with
  | invalid h => exact h.stop_le
  | unterminated => exact le_refl _

/-- The spans of what is read. -/
def Lexed.spans (out : Lexed) : List Span :=
  out.tokens.map Token.span ++ out.errors.map ParseError.span

namespace Lexed

theorem mem_spans {out : Lexed} {s : Span} :
    s ∈ out.spans ↔ (∃ t ∈ out.tokens, t.span = s) ∨ ∃ e ∈ out.errors, e.span = s := by
  rw [spans, List.mem_append, List.mem_map, List.mem_map]

theorem mem_spans_of_token {out : Lexed} {t : Token} (ht : t ∈ out.tokens) : t.span ∈ out.spans :=
  mem_spans.mpr (.inl ⟨t, ht, rfl⟩)

theorem mem_spans_of_error {out : Lexed} {e : ParseError} (he : e ∈ out.errors) :
    e.span ∈ out.spans :=
  mem_spans.mpr (.inr ⟨e, he, rfl⟩)

theorem mem_spans_consToken {out : Lexed} {t : Token} {s : Span} :
    s ∈ (out.consToken t).spans ↔ s = t.span ∨ s ∈ out.spans := by
  simp only [mem_spans, consToken, List.exists_mem_cons_iff, or_assoc, eq_comm]

theorem mem_spans_consError {out : Lexed} {e : ParseError} {s : Span} :
    s ∈ (out.consError e).spans ↔ s = e.span ∨ s ∈ out.spans := by
  simp only [mem_spans, consError, List.exists_mem_cons_iff, or_left_comm, eq_comm]

/-- **What is read covers the source** from `offset` on. -/
structure Covers (source : List Char) (offset : Nat) (out : Lexed) : Prop where
  /-- No span is empty, and none begins before `offset`. -/
  spans : ∀ s ∈ out.spans, offset ≤ s.start ∧ s.start < s.stop
  tokens : ∀ t ∈ out.tokens, Text.Slice source t.span t.text.toList
  errors : ∀ e ∈ out.errors, e.Marks source
  tokensInRow : out.tokens.Pairwise fun t u => t.span.stop ≤ u.span.start
  errorsInRow : out.errors.Pairwise fun e f => e.span.stop ≤ f.span.start
  disjoint : ∀ t ∈ out.tokens, ∀ e ∈ out.errors,
    t.span.stop ≤ e.span.start ∨ e.span.stop ≤ t.span.start
  covered : ∀ b, offset ≤ b → b < Text.width source →
    (∃ s ∈ out.spans, s.HasByte b) ∨ Text.BlankAt source b

namespace Covers

variable {source : List Char} {offset : Nat} {out : Lexed}

/-- At the end there is nothing to cover. -/
theorem done : Covers source (Text.width source) .empty where
  spans := nofun
  tokens := nofun
  errors := nofun
  tokensInRow := .nil
  errorsInRow := .nil
  disjoint := nofun
  covered := fun _ hb hlt => absurd hlt (Nat.not_lt.mpr hb)

/-- A blank in front. -/
theorem blank (h : Covers source (offset + 1) out) (hblank : Text.BlankAt source offset) :
    Covers source offset out :=
  { h with
    spans := fun s hs => ⟨Nat.le_of_succ_le (h.spans s hs).1, (h.spans s hs).2⟩
    covered := fun b hb hlt => by
      rcases Nat.eq_or_lt_of_le hb with rfl | hb
      · exact .inr hblank
      · exact h.covered b hb hlt }

/-- The bytes of a piece in front of others. -/
theorem covered_cons {spans : List Span} {s : Span} (hs : s ∈ spans)
    (hout : ∀ s ∈ out.spans, s ∈ spans) (h : Covers source s.stop out) :
    ∀ b, s.start ≤ b → b < Text.width source →
      (∃ s ∈ spans, s.HasByte b) ∨ Text.BlankAt source b := by
  intro b hb hlt
  rcases Nat.lt_or_ge b s.stop with hwithin | hbehind
  · exact .inl ⟨s, hs, hb, hwithin⟩
  · exact (h.covered b hbehind hlt).imp_left fun ⟨s', hs', hbyte⟩ => ⟨s', hout s' hs', hbyte⟩

/-- A piece in front of others: none of them begins before it ends. -/
theorem spans_cons {s : Span} (h : Covers source s.stop out) (hlt : s.start < s.stop) :
    ∀ s' : Span, s' = s ∨ s' ∈ out.spans → s.start ≤ s'.start ∧ s'.start < s'.stop := by
  rintro s' (rfl | hs')
  · exact ⟨le_refl _, hlt⟩
  · obtain ⟨hbehind, hproper⟩ := h.spans s' hs'
    exact ⟨(Nat.le_of_lt hlt).trans hbehind, hproper⟩

/-- **A token in front.** -/
theorem consToken {t : Token} (h : Covers source t.span.stop out)
    (ht : Text.Slice source t.span t.text.toList) (hlt : t.span.start < t.span.stop) :
    Covers source t.span.start (out.consToken t) where
  spans := fun s hs => h.spans_cons hlt s (mem_spans_consToken.mp hs)
  tokens := List.forall_mem_cons.mpr ⟨ht, h.tokens⟩
  errors := h.errors
  tokensInRow := by
    refine List.pairwise_cons.mpr ⟨fun u hu => ?_, h.tokensInRow⟩
    exact (h.spans _ (mem_spans_of_token hu)).1
  errorsInRow := h.errorsInRow
  disjoint := by
    refine List.forall_mem_cons.mpr ⟨fun e he => ?_, h.disjoint⟩
    exact .inl (h.spans _ (mem_spans_of_error he)).1
  covered := by
    refine h.covered_cons (mem_spans_consToken.mpr (.inl rfl)) fun s hs => ?_
    exact mem_spans_consToken.mpr (.inr hs)

/-- **An error in front.** -/
theorem consError {e : ParseError} (h : Covers source e.span.stop out) (he : e.Marks source)
    (hlt : e.span.start < e.span.stop) : Covers source e.span.start (out.consError e) where
  spans := fun s hs => h.spans_cons hlt s (mem_spans_consError.mp hs)
  tokens := h.tokens
  errors := List.forall_mem_cons.mpr ⟨he, h.errors⟩
  tokensInRow := h.tokensInRow
  errorsInRow := by
    refine List.pairwise_cons.mpr ⟨fun f hf => ?_, h.errorsInRow⟩
    exact (h.spans _ (mem_spans_of_error hf)).1
  disjoint := by
    intro t ht f hf
    rcases List.mem_cons.mp hf with rfl | hf
    · exact .inr (h.spans _ (mem_spans_of_token ht)).1
    · exact h.disjoint t ht f hf
  covered := by
    refine h.covered_cons (mem_spans_consError.mpr (.inl rfl)) fun s hs => ?_
    exact mem_spans_consError.mpr (.inr hs)

end Covers

/-- **What is to be read covers the source,** by induction on the pieces; `front` is what stands in
front of them. -/
theorem covers_of_tokenized {source : List Char} (hlimit : Text.width source ≤ Span.limit)
    {offset : Nat} {cs : List Char} {out : Lexed}
    (h : Tokenized (Text.width source) offset cs out) :
    ∀ front, source = front ++ cs → Text.width front = offset → Covers source offset out := by
  induction h with
  | @done offset =>
    rintro front hsource rfl
    rw [List.append_nil] at hsource
    rw [← hsource]
    exact .done
  | @blank offset w rest out h _ ih =>
    intro front hsource hfront
    cases h with | @blank c rest hc =>
    have hlater := ih (front ++ [c]) (by rw [List.append_assoc, hsource])
      (by rw [Text.width_append, hfront])
    rw [Text.width_blank hc] at hlater
    refine hlater.blank ⟨c, rest, ?_, front, hsource, hfront⟩
    simpa [isBlank, or_assoc] using hc
  | @token offset w rest kind span out h hspan _ ih =>
    intro front hsource hfront
    obtain ⟨-, -, rfl⟩ := (Span.ofBounds?_eq_ok_iff _ _ _).mp hspan
    cases h with | token h =>
    have hlater :=
      ih (front ++ w) (by rw [List.append_assoc, hsource]) (by rw [Text.width_append, hfront])
    have hw : w ≠ [] := by
      rintro rfl
      exact nil_notMem_pattern kind h.mem
    refine Covers.consToken (t := ⟨kind, ⟨offset, offset + Text.width w⟩, String.ofList w⟩)
      hlater ?_ ?_
    · rw [String.toList_ofList]
      exact ⟨rest, ⟨front, hsource, hfront⟩, rfl⟩
    · exact Nat.lt_add_of_pos_right (Text.width_pos hw)
  | @invalid offset w rest span out h hspan _ ih =>
    intro front hsource hfront
    obtain ⟨-, -, rfl⟩ := (Span.ofBounds?_eq_ok_iff _ _ _).mp hspan
    cases h with | @invalid c rest hblank hquote h =>
    have hlater :=
      ih (front ++ [c]) (by rw [List.append_assoc, hsource]) (by rw [Text.width_append, hfront])
    refine Covers.consError (e := .invalidCharacter _ ⟨offset, offset + Text.width [c]⟩)
      hlater ?_ ?_
    · exact .invalid ⟨rest, ⟨front, hsource, hfront⟩, rfl⟩
    · exact Nat.lt_add_of_pos_right (Text.width_pos (List.cons_ne_nil c []))
  | @unterminated offset w rest span h hspan =>
    intro front hsource hfront
    cases h with | @unterminated c rest hquote h =>
    have hstands : Text.Stands source offset [c] rest := ⟨front, hsource, hfront⟩
    have hwidth := Text.width_pos (List.cons_ne_nil c [])
    have hle := hstands.le_width
    -- the span of an open quote is put in front of nothing
    rw [Nat.min_eq_left hlimit]
    refine Covers.consError (e := .unterminatedLiteral ⟨offset, Text.width source⟩) .done ?_ ?_
    · exact .unterminated hquote hstands
    · exact (Nat.lt_add_of_pos_right hwidth).trans_le hle
  | @tooLarge offset w rest l overflow h hl hspan =>
    intro front hsource hfront
    -- no piece of such a source is beyond the limit
    have hle : offset + Text.width w ≤ Text.width source :=
      Text.Stands.le_width ⟨front, hsource, hfront⟩
    have hok := (Span.ofBounds?_eq_ok_iff offset (offset + Text.width w) _).mpr
      ⟨by omega, hle.trans hlimit, rfl⟩
    rw [hok] at hspan
    cases hspan

/-- An open quote is the last thing that is read. -/
theorem Covers.last {source : List Char} {out : Lexed} (h : Covers source 0 out)
    {before after : List ParseError} {span : Span}
    (herrors : out.errors = before ++ .unterminatedLiteral span :: after) :
    after = [] ∧ ∀ t ∈ out.tokens, t.span.stop ≤ span.start := by
  have hmem : ParseError.unterminatedLiteral span ∈ out.errors := by
    rw [herrors]
    exact List.mem_append_right _ List.mem_cons_self
  -- a literal that is not closed takes all that is left of the source
  have hstop : span.stop = Text.width source := by
    cases h.errors _ hmem
    rfl
  constructor
  · -- an error behind it would begin behind the end
    refine List.eq_nil_iff_forall_not_mem.mpr fun e he => ?_
    have he' : e ∈ out.errors := by
      rw [herrors]
      exact List.mem_append_right _ (List.mem_cons_of_mem _ he)
    have hrow := h.errorsInRow
    rw [herrors] at hrow
    have hbehind : span.stop ≤ e.span.start :=
      (List.pairwise_cons.mp (List.pairwise_append.mp hrow).2.1).1 e he
    have hproper := (h.spans _ (mem_spans_of_error he')).2
    have hend := (h.errors e he').stop_le
    omega
  · intro t ht
    refine (h.disjoint t ht _ hmem).resolve_right fun hbehind => ?_
    have hproper := (h.spans _ (mem_spans_of_token ht)).2
    have hend := (h.tokens t ht).stop_le
    have hbehind' : span.stop ≤ t.span.start := hbehind
    omega

end Lexed

/-- Tokens are slices of the text, whatever the text. -/
theorem slice_of_mem_lex {source : String} {t : Token} (ht : t ∈ (lex source).tokens) :
    Text.Slice source.toList t.span t.text.toList := by
  have hstop : t.span.stop = t.span.start + Text.width t.text.toList := by
    refine forall_mem_lexFrom (p := fun t => t.span.stop = t.span.start + Text.width t.text.toList)
      ?_ _ _ _ t ht
    intro offset c cs kind n span _ hspan
    obtain ⟨-, -, rfl⟩ := (Span.ofBounds?_eq_ok_iff _ _ _).mp hspan
    rw [String.toList_ofList]
  have hlongest : (lex source).Longest source.toList :=
    Lexed.longest_of_tokenized (tokenized_lexFrom _ 0 source.toList) [] rfl
  obtain ⟨rest, hstands, -⟩ := hlongest.token t ht
  exact ⟨rest, hstands, hstop⟩

/-- **Reading covers the source.** Tokens and errors are slices of it that do not meet, in the order
of the text; a character that begins no token is marked alone, and an open quote with all that
follows it, as the last thing. Every other byte is a blank. -/
theorem lex_covers (source : String) (h : Text.width source.toList ≤ Span.limit) :
    (lex source).Covers source.toList 0 ∧
      ∀ before span after, (lex source).errors = before ++ .unterminatedLiteral span :: after →
        after = [] ∧ ∀ t ∈ (lex source).tokens, t.span.stop ≤ span.start := by
  have hcovers : (lex source).Covers source.toList 0 :=
    Lexed.covers_of_tokenized h (tokenized_lexFrom _ 0 _) [] rfl rfl
  exact ⟨hcovers, fun before span after => hcovers.last⟩

/-- A character of two bytes is passed over, and an open quote ends the reading. -/
theorem lex_covers_unterminated :
    Text.width "a é 'b".toList ≤ Span.limit ∧
      (lex "a é 'b").errors = [.invalidCharacter "é" ⟨2, 4⟩, .unterminatedLiteral ⟨5, 7⟩] ∧
        (lex "a é 'b").Covers "a é 'b".toList 0 := by
  have hwidth : Text.width "a é 'b".toList ≤ Span.limit := by decide
  exact ⟨hwidth, by decide +kernel, (lex_covers _ hwidth).1⟩

end OperandOrder
