import OperandOrder.Parser
import OperandOrder.Proofs.Nodes

/-!
# Spans nest

In a tree that was read, whatever errors there were, the span of a node covers those of its
children, and these stand one after the other: `Expr.Nested`.

The tokens of a text stand in order (`inOrder_lex`). So does what is read from them: `Row lo hi es`
says that the trees `es` stand between the offsets `lo` and `hi`, in order, and that each of them is
nested. Every reading function keeps rows (`Reply.Reaches`): what it reads begins no earlier than
the first token it is given, and ends no later than the first one it leaves. An operand that is
missing stands between the two, with nothing in it, so the functions need not know whether there
were errors.
-/

namespace OperandOrder

/-! ### Spans in a row -/

/-- **Spans one after the other,** between two offsets. -/
def InRow (lo hi : Nat) : List Span → Prop
  | [] => lo ≤ hi
  | s :: ss => lo ≤ s.start ∧ s.start ≤ s.stop ∧ InRow s.stop hi ss

namespace InRow

variable {lo mid hi : Nat} {ss ss' : List Span}

/-- A row does not end before it begins. -/
theorem le (h : InRow lo hi ss) : lo ≤ hi := by
  induction ss generalizing lo with
  | nil => exact h
  | cons s ss ih =>
    obtain ⟨hstart, hproper, hss⟩ := h
    exact (hstart.trans hproper).trans (ih hss)

/-- A row fits between wider bounds. -/
theorem mono {lo' hi' : Nat} (h : InRow lo hi ss) (hlo : lo' ≤ lo) (hhi : hi ≤ hi') :
    InRow lo' hi' ss := by
  induction ss generalizing lo lo' with
  | nil => exact (hlo.trans h).trans hhi
  | cons s ss ih =>
    obtain ⟨hstart, hproper, hss⟩ := h
    exact ⟨hlo.trans hstart, hproper, ih hss (le_refl _)⟩

/-- **A row of two parts** is one row behind another, with a place between them. -/
theorem append_iff : InRow lo hi (ss ++ ss') ↔ ∃ mid, InRow lo mid ss ∧ InRow mid hi ss' := by
  induction ss generalizing lo with
  | nil =>
    constructor
    · exact fun h => ⟨lo, le_refl _, h⟩
    · rintro ⟨mid, hmid, h⟩
      exact h.mono hmid (le_refl _)
  | cons s ss ih =>
    rw [List.cons_append, InRow, ih]
    constructor
    · rintro ⟨hstart, hproper, mid, hss, hss'⟩
      exact ⟨mid, ⟨hstart, hproper, hss⟩, hss'⟩
    · rintro ⟨mid, ⟨hstart, hproper, hss⟩, hss'⟩
      exact ⟨hstart, hproper, mid, hss, hss'⟩

theorem left (h : InRow lo hi (ss ++ ss')) : InRow lo hi ss := by
  obtain ⟨mid, hss, hss'⟩ := append_iff.mp h
  exact hss.mono (le_refl _) hss'.le

theorem right (h : InRow lo hi (ss ++ ss')) : InRow lo hi ss' := by
  obtain ⟨mid, hss, hss'⟩ := append_iff.mp h
  exact hss'.mono hss.le (le_refl _)

/-- The spans in a row lie between the two offsets. -/
theorem bounds (h : InRow lo hi ss) : ∀ s ∈ ss, lo ≤ s.start ∧ s.start ≤ s.stop ∧ s.stop ≤ hi := by
  induction ss generalizing lo with
  | nil => exact List.forall_mem_nil _
  | cons s ss ih =>
    obtain ⟨hstart, hproper, hss⟩ := h
    refine List.forall_mem_cons.mpr ⟨⟨hstart, hproper, hss.le⟩, fun s' hs' => ?_⟩
    obtain ⟨hstart', hrest⟩ := ih hss s' hs'
    exact ⟨(hstart.trans hproper).trans hstart', hrest⟩

/-- Spans in a row are in order. -/
theorem pairwise (h : InRow lo hi ss) : ss.Pairwise fun s s' => s.stop ≤ s'.start := by
  induction ss generalizing lo with
  | nil => exact .nil
  | cons s ss ih =>
    obtain ⟨-, -, hss⟩ := h
    exact List.pairwise_cons.mpr ⟨fun s' hs' => (hss.bounds s' hs').1, ih hss⟩

/-- A row ends where its last span does. -/
theorem to_last {s : Span} (h : InRow lo hi (s :: ss)) :
    s.stop ≤ (ss.getLastD s).stop ∧ s.start ≤ (ss.getLastD s).start ∧ (ss.getLastD s).stop ≤ hi ∧
      InRow s.start (ss.getLastD s).stop (s :: ss) := by
  induction ss generalizing lo s with
  | nil =>
    obtain ⟨-, hproper, hhi⟩ := h
    exact ⟨le_refl _, le_refl _, hhi, le_refl _, hproper, le_refl _⟩
  | cons s' ss ih =>
    -- the last span is that of the rest, and the rest is in a row up to it
    obtain ⟨-, hproper, hss⟩ := h
    obtain ⟨hstop, hstart, hhi, hrow⟩ := ih hss
    rw [List.getLastD_cons]
    have hnext : s.stop ≤ s'.start := hss.1
    have hproper' : s'.start ≤ s'.stop := hss.2.1
    exact ⟨(hnext.trans hproper').trans hstop, (hproper.trans hnext).trans hstart, hhi,
      le_refl _, hproper, hrow.mono hnext (le_refl _)⟩

end InRow

/-! ### Tokens in order -/

namespace Parser

/-- Where what is left begins: at the next token, or at the end of the source. -/
def edge (total : Nat) (ts : List Token) : Nat := (here total ts).start

/-- **Tokens one after the other,** up to the end of the source. -/
def TokensInOrder (total : Nat) : List Token → Prop
  | [] => True
  | t :: ts => t.span.start ≤ t.span.stop ∧ t.span.stop ≤ edge total ts ∧ TokensInOrder total ts

namespace TokensInOrder

variable {total : Nat} {ts : List Token}

/-- The first token that is left comes no earlier than the first one there was. -/
theorem edge_le (h : TokensInOrder total ts) (n : Nat) :
    edge total ts ≤ edge total (ts.drop n) := by
  induction n generalizing ts with
  | zero => exact le_refl _
  | succ n ih =>
    cases ts with
    | nil => exact le_refl _
    | cons t ts =>
      obtain ⟨hproper, hnext, hts⟩ := h
      exact (hproper.trans hnext).trans (ih hts)

/-- No token stands behind the end of the source. -/
theorem edge_le_total (h : TokensInOrder total ts) : edge total ts ≤ total := by
  have hend := h.edge_le ts.length
  rw [List.drop_length] at hend
  exact hend

/-- Tokens in order are in a row. -/
theorem inRow (h : TokensInOrder total ts) : InRow (edge total ts) total (ts.map Token.span) := by
  induction ts with
  | nil => exact le_refl _
  | cons t ts ih =>
    obtain ⟨hproper, hnext, hts⟩ := h
    exact ⟨le_refl _, hproper, (ih hts).mono hnext (le_refl _)⟩

/-- What is left of tokens in order is in order. -/
theorem drop (h : TokensInOrder total ts) (n : Nat) : TokensInOrder total (ts.drop n) := by
  induction n generalizing ts with
  | zero => exact h
  | succ n ih =>
    cases ts with
    | nil => exact h
    | cons t ts => exact ih h.2.2

end TokensInOrder

/-- **The tokens of a text are in order,** and the first of them is not in front of the text.
Offsets beyond the limit do not occur, so the end of the source counts as no more than that. -/
theorem inOrder_lexFrom (total : Nat) : ∀ (offset : Nat) (cs : List Char) (bound : Nat),
    offset + Text.width cs = bound →
      TokensInOrder (min bound Span.limit) (lexFrom total offset cs).tokens ∧
        min offset Span.limit ≤ edge (min bound Span.limit) (lexFrom total offset cs).tokens
  | offset, [], bound, hbound => by
    rw [lexFrom]
    refine ⟨trivial, ?_⟩
    rw [← hbound]
    exact le_refl _
  | offset, c :: cs, bound, hbound => by
    -- what is taken and what is left make up the text
    have hle : min offset Span.limit ≤ min bound Span.limit := by omega
    have htext : offset + Text.width (c :: cs.take (Lexeme.next c cs).2) +
        Text.width (cs.drop (Lexeme.next c cs).2) = bound := by
      rw [Nat.add_assoc, ← Text.width_append, List.cons_append, List.take_append_drop]
      exact hbound
    obtain ⟨horder, hedge⟩ := inOrder_lexFrom total _ _ bound htext
    rw [lexFrom]
    split
    next => exact ⟨horder, by omega⟩
    next =>
      split
      next => exact ⟨trivial, hle⟩
      next span hspan =>
        obtain ⟨hstart, hstop, rfl⟩ := (Span.ofBounds?_eq_ok_iff _ _ _).mp hspan
        rw [Nat.min_eq_left hstop] at hedge
        split
        next =>
          -- what is behind the token begins where the token ends, or later
          exact ⟨⟨Nat.le_add_right _ _, hedge, horder⟩, Nat.min_le_left _ _⟩
        next => exact ⟨trivial, hle⟩
        next => exact ⟨horder, ((Nat.min_le_left _ _).trans (Nat.le_add_right _ _)).trans hedge⟩
termination_by _ cs => cs.length
decreasing_by simp only [List.length_cons, List.length_drop]; omega

/-- The tokens of a source stand in order, within the source and within the limit. -/
theorem inOrder_lex (source : String) :
    TokensInOrder (min (Text.width source.toList) Span.limit) (lex source).tokens :=
  (inOrder_lexFrom _ 0 _ _ (Nat.zero_add _)).1

end Parser

/-! ### Trees in a row -/

namespace Expr

/-- **Spans nest:** the children of a node stand within its span, one after the other. -/
def Nested (e : Expr) : Prop :=
  e.Every fun x => InRow x.span.start x.span.stop (x.children.map span)

/-- A child stands within its parent. -/
theorem Nested.bounds_child {e x y : Expr} (h : e.Nested) (hy : e.HasNode y) (hx : x ∈ y.children) :
    y.span.start ≤ x.span.start ∧ x.span.start ≤ x.span.stop ∧ x.span.stop ≤ y.span.stop :=
  InRow.bounds (Every.node h hy) x.span (List.mem_map_of_mem hx)

/-- A node stands within the root. -/
theorem Nested.bounds_node {e x : Expr} (h : e.Nested) (hx : e.HasNode x) :
    e.span.start ≤ x.span.start ∧ x.span.start ≤ x.span.stop ∧ x.span.stop ≤ e.span.stop := by
  induction hx with
  | self e => exact ⟨le_refl _, InRow.le (Every.self h), le_refl _⟩
  | inner hchild _ ih =>
    obtain ⟨hstart, -, hstop⟩ := h.bounds_child (.self _) hchild
    obtain ⟨hstart', hproper, hstop'⟩ := ih (Every.child h hchild)
    exact ⟨hstart.trans hstart', hproper, hstop'.trans hstop⟩

end Expr

/-- **Nested trees one after the other,** between two offsets. -/
structure Row (lo hi : Nat) (es : List Expr) : Prop where
  inRow : InRow lo hi (es.map Expr.span)
  nested : ∀ e ∈ es, e.Nested

namespace Row

variable {lo mid hi : Nat} {es es' : List Expr} {e : Expr}

theorem nil (h : lo ≤ hi) : Row lo hi [] := ⟨h, List.forall_mem_nil _⟩

theorem le (h : Row lo hi es) : lo ≤ hi := h.inRow.le

theorem mono {lo' hi' : Nat} (h : Row lo hi es) (hlo : lo' ≤ lo) (hhi : hi ≤ hi') :
    Row lo' hi' es :=
  ⟨h.inRow.mono hlo hhi, h.nested⟩

/-- One row behind another is a row. -/
theorem append (h : Row lo mid es) (h' : Row mid hi es') : Row lo hi (es ++ es') := by
  refine ⟨?_, List.forall_mem_append.mpr ⟨h.nested, h'.nested⟩⟩
  rw [List.map_append]
  exact InRow.append_iff.mpr ⟨mid, h.inRow, h'.inRow⟩

/-- A row is divided at any tree of it. -/
theorem split (h : Row lo hi (es ++ es')) : ∃ mid, Row lo mid es ∧ Row mid hi es' := by
  obtain ⟨hnested, hnested'⟩ := List.forall_mem_append.mp h.nested
  have hrow := h.inRow
  rw [List.map_append] at hrow
  obtain ⟨mid, hes, hes'⟩ := InRow.append_iff.mp hrow
  exact ⟨mid, ⟨hes, hnested⟩, ⟨hes', hnested'⟩⟩

theorem head (h : Row lo hi (e :: es)) : Row lo hi [e] := by
  obtain ⟨hstart, hproper, hrest⟩ := h.inRow
  exact ⟨⟨hstart, hproper, hrest.le⟩, List.forall_mem_singleton.mpr (h.nested e List.mem_cons_self)⟩

/-- A tree in a row of its own lies within the bounds. -/
theorem bounds (h : Row lo hi [e]) :
    lo ≤ e.span.start ∧ e.span.start ≤ e.span.stop ∧ e.span.stop ≤ hi :=
  h.inRow

theorem from_start (h : Row lo hi [e]) : Row e.span.start hi [e] :=
  ⟨⟨le_refl _, h.bounds.2⟩, h.nested⟩

theorem to_stop (h : Row lo hi [e]) : Row lo e.span.stop [e] :=
  ⟨⟨h.bounds.1, h.bounds.2.1, le_refl _⟩, h.nested⟩

/-- **A node from `a` to `b`,** around its children. -/
theorem node {a b : Span} (hspan : e.span = a.merge b) (hlo : lo ≤ a.start)
    (hstart : a.start ≤ b.start) (hstop : a.stop ≤ b.stop) (hhi : b.stop ≤ hi)
    (hchildren : Row a.start b.stop e.children) :
    Row lo hi [e] := by
  have hmerged : e.span = ⟨a.start, b.stop⟩ := by
    rw [hspan, Span.merge, Nat.min_eq_left hstart, Nat.max_eq_right hstop]
  have he : InRow e.span.start e.span.stop (e.children.map Expr.span) := by
    rw [hmerged]
    exact hchildren.inRow
  refine ⟨?_, List.forall_mem_singleton.mpr ?_⟩
  · rw [List.map_singleton, hmerged]
    exact ⟨hlo, hchildren.le, hhi⟩
  · exact Expr.every_of_children (le_refl _) he hchildren.nested

/-- A node with nothing below it. -/
theorem leaf (hchildren : e.children = []) (hlo : lo ≤ e.span.start)
    (hproper : e.span.start ≤ e.span.stop) (hhi : e.span.stop ≤ hi) : Row lo hi [e] := by
  have hmerge : e.span = e.span.merge e.span := by simp [Span.merge]
  refine node hmerge hlo (le_refl _) (le_refl _) hhi ?_
  rw [hchildren]
  exact nil hproper

/-- **A node from its first child to its last one.** -/
theorem around {first : Expr} {others : List Expr} (h : Row lo hi (first :: others))
    (hchildren : e.children = first :: others)
    (hspan : e.span = first.span.merge (others.getLastD first).span) : Row lo hi [e] := by
  have hlast : (others.map Expr.span).getLastD first.span = (others.getLastD first).span :=
    List.getLastD_map
  obtain ⟨hstop, hstart, hhi, hrow⟩ := InRow.to_last h.inRow
  rw [hlast] at hstop hstart hhi hrow
  refine node hspan h.inRow.1 hstart hstop hhi ?_
  rw [hchildren]
  exact ⟨hrow, h.nested⟩

/-- A node from a token in front to its only child. -/
theorem behind {t : Span} {x : Expr} (h : Row t.stop hi [x]) (hlo : lo ≤ t.start)
    (ht : t.start ≤ t.stop) (hchildren : e.children = [x]) (hspan : e.span = t.merge x.span) :
    Row lo hi [e] := by
  obtain ⟨hstart, hproper, hstop⟩ := h.bounds
  refine node hspan hlo (ht.trans hstart) (hstart.trans hproper) hstop ?_
  rw [hchildren]
  exact h.to_stop.mono ht (le_refl _)

end Row

/-! ### Grouping -/

/-- The operands of a run. -/
def Run.operands : Run → List Expr
  | .single e => [e]
  | .joined _ first others => first :: others

/-- The operands of a flat sequence. -/
def Flat.operands (f : Flat) : List Expr := f.head :: f.tail.map Prod.snd

section Grouping

variable {lo hi : Nat}

/-- Closing a run covers it with one node. -/
theorem row_close {run : Run} (h : Row lo hi run.operands) : Row lo hi [run.close] := by
  cases run with
  | single e => exact h
  | joined op first others => exact h.around (Expr.children_join _ _ _) (Expr.span_join _ _ _)

/-- Taking one more operand into a run keeps the row: either it becomes the last one of the run, or
the run is covered by a node before. -/
theorem row_extend {run : Run} {e : Expr} (op : BinaryOp) (h : Row lo hi (run.operands ++ [e])) :
    Row lo hi (run.extend op e).operands := by
  cases run with
  | single first => exact h
  | joined op' first others =>
    rw [Run.extend]
    split
    next => exact h
    next =>
      -- another operator closes the run, which is its first operand
      obtain ⟨mid, hrun, he⟩ := h.split
      exact (row_close hrun).append he

/-- **Grouping operands keeps the row.** The node of a run spans from its first operand to its last,
so it stands where they stood. -/
theorem row_collapseFrom (level : Nat) {run : Run} {rest : List (BinaryOp × Expr)}
    (h : Row lo hi (run.operands ++ rest.map Prod.snd)) :
    Row lo hi (Flat.collapseFrom level run rest).operands := by
  induction rest generalizing lo run with
  | nil =>
    rw [List.map_nil, List.append_nil] at h
    exact row_close h
  | cons p rest ih =>
    obtain ⟨op, e⟩ := p
    rw [Flat.collapseFrom]
    split
    next =>
      -- the operand goes to the run
      refine ih ?_
      rw [List.map_cons, List.append_cons] at h
      obtain ⟨mid, hrun, hrest⟩ := h.split
      exact (row_extend op hrun).append hrest
    next =>
      -- the run ends here, and another one begins
      obtain ⟨mid, hrun, hrest⟩ := h.split
      exact (row_close hrun).append (ih hrest)

/-- **The tree of a flat sequence** stands where its operands do. -/
theorem row_group {f : Flat} (h : Row lo hi f.operands) : Row lo hi [f.group] := by
  have hlevels : ∀ levels : List Nat, Row lo hi (levels.foldl Flat.collapse f).operands := by
    intro levels
    induction levels generalizing f with
    | nil => exact h
    | cons level levels ih => exact ih (row_collapseFrom level h)
  exact (hlevels BinaryOp.levels).head

end Grouping

/-! ### Reading -/

/-- **What a reply reaches:** its value is as asked, given where the tokens that it leaves begin. -/
def Reply.Reaches {α : Type} (total : Nat) (ts : List Token) (P : Nat → α → Prop) (r : Reply α) :
    Prop :=
  P (Parser.edge total (ts.drop r.used)) r.value

/-- An answer further on is one from here on. -/
theorem Reply.Reaches.after {α : Type} {total n : Nat} {ts : List Token} {P : Nat → α → Prop}
    {r : Reply α} {earlier : List ParseError} (h : r.Reaches total (ts.drop n) P) :
    (r.after n earlier).Reaches total ts P := by
  rw [Reply.Reaches, List.drop_drop] at h
  exact h

/-- One token, and what is read behind it. -/
theorem Reply.Reaches.cons {α β : Type} {total : Nat} {ts : List Token} {t : Token}
    {P : Nat → α → Prop} {Q : Nat → β → Prop} {r : Reply α} {v : β} {errors : List ParseError}
    (h : r.Reaches total ts P) (hQ : ∀ hi, P hi r.value → Q hi v) :
    (⟨v, 1 + r.used, errors⟩ : Reply β).Reaches total (t :: ts) Q := by
  change Q (Parser.edge total ((t :: ts).drop (1 + r.used))) v
  rw [Nat.add_comm, List.drop_succ_cons]
  exact hQ _ h

/-- **Arguments in a row,** with the span that closes them. That is the one of the last argument if
nothing else closes them. -/
structure Arguments.Within (lo hi : Nat) (as : Arguments) : Prop where
  row : Row lo as.close.stop as.list
  start : lo ≤ as.close.start
  stop : as.close.stop ≤ hi

namespace Parser

section Nodes

variable {total lo mid hi : Nat}

/-- What stands for a missing operand lies at the place where it is missed. -/
theorem row_missing (ts : List Token) : Row (edge total ts) (edge total ts) [missing total ts] :=
  .leaf rfl (le_refl _) (le_refl _) (le_refl _)

/-- A conditional covers its three parts. -/
theorem row_conditional {c y n : Expr} (h : Row lo hi [c, y, n]) :
    Row lo hi [.conditional (c.span.merge n.span) c y n] :=
  h.around rfl rfl

/-- The access to a field covers what stands before the point and the name. -/
theorem row_field {e : Expr} {name : Token} (he : Row lo name.span.start [e])
    (hname : name.span.start ≤ name.span.stop) (hhi : name.span.stop ≤ hi) :
    Row lo hi [.field (e.span.merge name.span) e name.text] := by
  obtain ⟨hstart, hproper, hstop⟩ := he.bounds
  exact .node rfl hstart (hproper.trans hstop) (hstop.trans hname) hhi
    (he.from_start.mono (le_refl _) hname)

/-- The call of a method covers what stands before it and its arguments. -/
theorem row_method {e : Expr} {name : String} {as : Arguments} (he : Row lo mid [e])
    (has : as.Within mid hi) : Row lo hi [.call (e.span.merge as.close) e name as.list] := by
  obtain ⟨hstart, hproper, hstop⟩ := he.bounds
  refine .node rfl hstart ((hproper.trans hstop).trans has.start) (hstop.trans has.row.le)
    has.stop ?_
  rw [Expr.children]
  split
  next => exact has.row.mono (hproper.trans hstop) (le_refl _)
  next => exact he.from_start.append has.row

/-- A call covers its name and its arguments. -/
theorem row_call {name : Token} {as : Arguments} (hname : name.span.start ≤ name.span.stop)
    (hmid : name.span.stop ≤ mid) (has : as.Within mid hi) :
    Row name.span.start hi [.call (name.span.merge as.close) .absent name.text as.list] := by
  have hstart : name.span.start ≤ mid := hname.trans hmid
  exact .node rfl (le_refl _) (hstart.trans has.start) (hmid.trans has.row.le) has.stop
    (has.row.mono hstart (le_refl _))

/-- A parenthesis covers its inside and reaches to its closing sign. Where that is missing, it ends
with what is inside. -/
theorem closeParen_row {o : Token} {e : Expr} {ts : List Token} (hts : TokensInOrder total ts)
    (ho : o.span.start ≤ o.span.stop) (he : Row o.span.stop (edge total ts) [e]) :
    (closeParen total o.span e ts).Reaches total ts fun hi x => Row o.span.start hi [x] := by
  have hopen : Row o.span.start (edge total ts) [.paren (o.span.merge e.span) e] :=
    he.behind (le_refl _) ho rfl rfl
  cases ts with
  | nil => exact hopen
  | cons c rest =>
    obtain ⟨hc, hrest, -⟩ := hts
    rw [closeParen]
    split
    next => exact .node rfl (le_refl _) (ho.trans he.le) (he.le.trans hc) hrest (he.mono ho hc)
    next => exact hopen

/-- The last argument closes the call if nothing else does. -/
theorem withoutClose_within {e : Expr} {ts : List Token} (he : Row lo (edge total ts) [e]) :
    (withoutClose total e ts).Reaches total ts fun hi as => as.Within lo hi :=
  ⟨he.to_stop, he.bounds.1, he.bounds.2.2⟩

end Nodes

mutual

theorem expression_row {total : Nat} {ts : List Token} (hts : TokensInOrder total ts) :
    (expression total ts).Reaches total ts fun hi e => Row (edge total ts) hi [e] := by
  rw [expression]
  exact .after (conditional_row (hts.drop _) (row_group (operands_row hts)))
termination_by 8 * ts.length + 4

/-- A condition that has been read stays in the row, with the branches behind it. -/
theorem conditional_row {total lo : Nat} {c : Expr} : {ts : List Token} → TokensInOrder total ts →
    Row lo (edge total ts) [c] → (conditional total c ts).Reaches total ts fun hi e => Row lo hi [e]
  | [], _, hc => by
    rw [conditional]
    exact hc
  | q :: rest, hts, hc => by
    obtain ⟨hq, hrest, hts'⟩ := hts
    rw [conditional]
    split
    next =>
      -- the second branch is read where the first one ends
      have hy := expression_row hts'
      refine .after ?_
      rw [Nat.add_comm, List.drop_succ_cons]
      exact alternative_row (hts'.drop _) ((hc.mono (le_refl _) (hq.trans hrest)).append hy)
    next => exact hc
termination_by ts => 8 * ts.length

/-- The condition and the first branch stay in the row, with the second behind them. -/
theorem alternative_row {total lo : Nat} {c y : Expr} : {ts : List Token} → TokensInOrder total ts →
    Row lo (edge total ts) [c, y] → (alternative total c y ts).Reaches total ts fun hi e =>
      Row lo hi [e]
  | [], _, hcy => by
    rw [alternative]
    exact row_conditional (hcy.append (row_missing []))
  | l :: rest, hts, hcy => by
    obtain ⟨hl, hrest, hts'⟩ := hts
    rw [alternative]
    split
    next =>
      refine (expression_row hts').cons fun hi hn => row_conditional ?_
      exact (hcy.mono (le_refl _) (hl.trans hrest)).append hn
    next => exact row_conditional (hcy.append (row_missing (l :: rest)))
termination_by ts => 8 * ts.length

theorem operands_row {total : Nat} {ts : List Token} (hts : TokensInOrder total ts) :
    (operands total ts).Reaches total ts fun hi f => Row (edge total ts) hi f.operands := by
  rw [operands]
  exact .after (operandsAfter_row (hts.drop _) (unary_row hts))
termination_by 8 * ts.length + 3

/-- An operand that has been read stays in the row, with the others behind it. -/
theorem operandsAfter_row {total lo : Nat} {e : Expr} : {ts : List Token} → TokensInOrder total ts →
    Row lo (edge total ts) [e] →
      (operandsAfter total e ts).Reaches total ts fun hi f => Row lo hi f.operands
  | [], _, he => by
    rw [operandsAfter]
    exact he
  | t :: rest, hts, he => by
    obtain ⟨ht, hrest, hts'⟩ := hts
    rw [operandsAfter]
    split
    next => exact he
    next op _ =>
      refine (operands_row hts').cons fun hi hf => ?_
      exact (he.mono (le_refl _) (ht.trans hrest)).append hf
termination_by ts => 8 * ts.length

/-- A sign stands in front of its operand and covers it. -/
theorem unary_row {total : Nat} : {ts : List Token} → TokensInOrder total ts →
    (unary total ts).Reaches total ts fun hi e => Row (edge total ts) hi [e]
  | [], hts => by
    rw [unary]
    exact memberChain_row hts
  | t :: rest, hts => by
    rw [unary]
    split
    next => exact memberChain_row hts
    next op _ =>
      obtain ⟨ht, hrest, hts'⟩ := hts
      refine (unary_row hts').cons fun hi he => ?_
      exact (he.mono hrest (le_refl _)).behind (le_refl _) ht rfl rfl
termination_by ts => 8 * ts.length + 2

theorem memberChain_row {total : Nat} {ts : List Token} (hts : TokensInOrder total ts) :
    (memberChain total ts).Reaches total ts fun hi e => Row (edge total ts) hi [e] := by
  rw [memberChain]
  exact .after (members_row (hts.drop _) (primary_row hts))
termination_by 8 * ts.length + 1

/-- What has been read stays in front of its members. The span of a member reaches from there to the
name, or to the end of the arguments. -/
theorem members_row {total lo : Nat} {e : Expr} : {ts : List Token} → TokensInOrder total ts →
    Row lo (edge total ts) [e] → (members total e ts).Reaches total ts fun hi e' => Row lo hi [e']
  | [], _, he => by
    rw [members]
    exact he
  | [dot], hts, he => by
    rw [members]
    split
    -- a point without a name is passed over, and nothing stands there
    next => exact he.mono (le_refl _) (hts.edge_le 1)
    next => exact he
  | [dot, name], hts, he => by
    have hdot := hts.edge_le 1
    rw [members]
    split
    next =>
      split
      next => exact row_field (he.mono (le_refl _) hdot) hts.2.2.1 hts.2.2.2.1
      next => exact he.mono (le_refl _) hdot
    next => exact he
  | dot :: name :: t :: inside, hts, he => by
    have hdot := hts.edge_le 1
    have ⟨_, _, hname, hnext, hts'⟩ := hts
    rw [members]
    split
    next =>
      split
      next =>
        split
        next =>
          -- a call: the point, the name, the parenthesis and the arguments are taken
          have has := arguments_within hts'.2.2
          refine .after ?_
          rw [Nat.add_comm, List.drop_succ_cons, List.drop_succ_cons, List.drop_succ_cons]
          exact members_row (hts'.2.2.drop _)
            (row_method (he.mono (le_refl _) (hts.edge_le 3)) has)
        next =>
          -- a field, and the third token is met again as the next member's
          refine .after (n := 2) ?_
          exact members_row hts' (row_field (he.mono (le_refl _) hdot) hname hnext)
      next => exact he.mono (le_refl _) hdot
    next => exact he
termination_by ts => 8 * ts.length

/-- Arguments lie between the place where the list begins and the sign that closes it. -/
theorem arguments_within {total : Nat} : {ts : List Token} → TokensInOrder total ts →
    (arguments total ts).Reaches total ts fun hi as => as.Within (edge total ts) hi
  | [], hts => by
    rw [arguments]
    exact someArguments_within hts
  | t :: rest, hts => by
    rw [arguments]
    split
    next => exact ⟨.nil hts.1, le_refl _, hts.2.1⟩
    next => exact someArguments_within hts
termination_by ts => 8 * ts.length + 6

theorem someArguments_within {total : Nat} {ts : List Token} (hts : TokensInOrder total ts) :
    (someArguments total ts).Reaches total ts fun hi as => as.Within (edge total ts) hi := by
  rw [someArguments]
  exact .after (argumentsAfter_within (hts.drop _) (expression_row hts))
termination_by 8 * ts.length + 5

/-- An argument that has been read stays in front of the others, and all lie before the sign that
closes the list. -/
theorem argumentsAfter_within {total lo : Nat} {e : Expr} :
    {ts : List Token} → TokensInOrder total ts → Row lo (edge total ts) [e] →
      (argumentsAfter total e ts).Reaches total ts fun hi as => as.Within lo hi
  | [], _, he => by
    rw [argumentsAfter]
    exact withoutClose_within he
  | t :: rest, hts, he => by
    obtain ⟨ht, hrest, hts'⟩ := hts
    rw [argumentsAfter]
    split
    next =>
      refine (someArguments_within hts').cons fun hi has => ?_
      have he' := he.mono (le_refl _) (ht.trans hrest)
      exact ⟨he'.append has.row, he'.le.trans has.start, has.stop⟩
    next =>
      split
      next => exact ⟨he.mono (le_refl _) ht, he.le, hrest⟩
      next => exact withoutClose_within he
termination_by ts => 8 * ts.length

/-- One case for each kind of token that begins an operand; where there is none, something is
missing and no token is taken. -/
theorem primary_row {total : Nat} : {ts : List Token} → TokensInOrder total ts →
    (primary total ts).Reaches total ts fun hi e => Row (edge total ts) hi [e]
  | [], _ => by
    rw [primary]
    exact row_missing []
  | t :: rest, hts => by
    have ⟨ht, hrest, hts'⟩ := hts
    unfold primary
    split
    next => exact .leaf rfl (le_refl _) ht hrest
    next =>
      split
      next =>
        split
        next => exact .leaf rfl (le_refl _) ht hrest
        next p inside =>
          split
          next =>
            -- the name and the parenthesis are taken, and then the arguments
            have has := arguments_within hts'.2.2
            change Row _
              (edge total ((t :: p :: inside).drop (2 + (arguments total inside).used))) _
            rw [Nat.add_comm, List.drop_succ_cons, List.drop_succ_cons]
            exact row_call ht (hrest.trans (hts'.1.trans hts'.2.1)) has
          next => exact .leaf rfl (le_refl _) ht hrest
      next =>
        split
        next =>
          have he := expression_row hts'
          refine .after ?_
          rw [Nat.add_comm, List.drop_succ_cons]
          exact closeParen_row (hts'.drop _) ht (he.mono hrest (le_refl _))
        next => exact row_missing (t :: rest)
termination_by ts => 8 * ts.length

end

end Parser

/-- **What is read from a text is nested,** and stands within the text. -/
theorem row_parse (source : String) : Row 0 (Text.width source.toList) [(parse source).expr] := by
  have hts := Parser.inOrder_lex source
  have hread := Parser.expression_row hts
  exact hread.mono (Nat.zero_le _) ((hts.drop _).edge_le_total.trans (Nat.min_le_left _ _))

end OperandOrder
