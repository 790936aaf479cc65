import OperandOrder.Proofs.Arena.Depositing
import OperandOrder.Proofs.Parser.Descent

/-!
# What reading leaves in an arena

Reading into an arena does what reading without one does (`Draft.drafts`): where `Cursor` answers
with a tree, `Draft` has the same tree built in its arena, goes on at the same token and has
recorded the same errors. There has to be room for the tree. This goes by induction over the
fixpoint of `Cursor`, with one step for each branch of each procedure, those included where
something is missing. That `Draft` has an answer is part of what is shown, so no argument of its own
is needed for why it comes to an end.

The loops are the point of it. What the loop over operators has in hand is a run whose operands are
in the arena and whose node is not (`Draft.Carries`), and a turn of the loop keeps it so
(`Draft.chain_again`). The loop over members has a tree that has been built, and the one over
arguments several of them.
-/

namespace OperandOrder

/-! ### Joined operands -/

namespace Expr

/-- A node of infix operands counts itself and them. -/
theorem size_join (span : Span) (op : BinaryOp) (es : List Expr) :
    (join span op es).size = 1 + sizes es := by
  unfold join
  -- two operands are a node with two children, and more of them a chain
  split
  · simp [size, sizes, Nat.add_assoc]
  · rw [size]

/-- Two operands are kept in the cell; three or more are kept in a list. -/
theorem listed_join (span : Span) (op : BinaryOp) (es : List Expr) :
    (join span op es).listed = listedAll es + if es.length = 2 then 0 else es.length := by
  unfold join
  split
  · simp [listed, listedAll]
  next hne =>
    have hlength : es.length ≠ 2 := fun h => by
      obtain ⟨left, right, rfl⟩ := List.length_eq_two.mp h
      exact hne left right rfl
    rw [listed, if_neg hlength]

/-- One tree takes no more room than another. -/
structure FitsIn (x y : Expr) : Prop where
  size : x.size ≤ y.size
  listed : x.listed ≤ y.listed

theorem FitsIn.trans {x y z : Expr} (h : x.FitsIn y) (h' : y.FitsIn z) : x.FitsIn z :=
  ⟨h.size.trans h'.size, h.listed.trans h'.listed⟩

end Expr

theorem Arena.Room.fits {a : Arena} {x y : Expr} (h : a.Room y.size y.listed) (hfits : x.FitsIn y) :
    a.Room x.size x.listed :=
  h.of_le hfits.size hfits.listed

namespace Run

/-- **A run in the loop over a level:** an operand that is tighter, or two operands and more under
an operator of the level. -/
def OfLevel (level : Nat) : Run → Prop
  | .single e => ∀ op, e.infixed? = some op → op.level < level
  | .joined op _ others => op.level = level ∧ others ≠ []

variable {level : Nat} {run : Run} {op : BinaryOp} {x : Expr}

/-- A run of a level takes in one more operand of that level. -/
theorem OfLevel.extend (hop : op.level = level) (run : Run) (x : Expr) :
    (run.extend op x).OfLevel level := by
  cases run with
  | single first => exact ⟨hop, by simp⟩
  | joined op' first others =>
    rw [Run.extend]
    split
    · exact ⟨hop, by simp⟩
    · exact ⟨hop, by simp⟩

/-- A longer run takes up what the shorter one takes up, and the operand. -/
theorem OfLevel.close_extend (h : run.OfLevel level) (op : BinaryOp) (x : Expr) :
    run.close.size + x.size ≤ (run.extend op x).close.size ∧
      run.close.listed + x.listed ≤ (run.extend op x).close.listed := by
  have hpair : ∀ e : Expr, Expr.sizes [e, x] = e.size + x.size ∧
      Expr.listedAll [e, x] = e.listed + x.listed := fun e => ⟨rfl, rfl⟩
  -- the node on top of the run is counted in both
  cases run with
  | single first =>
    simp only [Run.extend, close, Expr.size_join, Expr.listed_join, hpair]
    omega
  | joined op' first others =>
    obtain ⟨-, hothers⟩ := h
    have hlength := List.length_pos_iff.mpr hothers
    rw [Run.extend]
    split
    · -- the run goes on under its own operator, so its list grows by the operand
      have hsizes := Expr.sizes_append (first :: others) [x]
      have hlisted := Expr.totals_listedAll.append rfl (first :: others) [x]
      have hlast : Expr.sizes [x] = x.size ∧ Expr.listedAll [x] = x.listed := ⟨rfl, rfl⟩
      rw [List.cons_append] at hsizes hlisted
      simp only [close, Expr.size_join, Expr.listed_join, hsizes, hlisted, hlast, List.length_cons,
        List.length_append, List.length_nil]
      split_ifs <;> omega
    · -- another operator closes the run, which becomes the first of two operands
      simp only [close, Expr.size_join, Expr.listed_join, hpair]
      omega

/-- What a run denotes fits in what it denotes with one more operand. -/
theorem OfLevel.fits (h : run.OfLevel level) (op : BinaryOp) (x : Expr) :
    run.close.FitsIn (run.extend op x).close := by
  obtain ⟨hsize, hlisted⟩ := h.close_extend op x
  exact ⟨by omega, by omega⟩

/-- What a run of a level makes is of the level, or tighter. -/
theorem OfLevel.level_close (h : run.OfLevel level) (hop : run.close.infixed? = some op) :
    op.level ≤ level := by
  cases run with
  | single e => exact Nat.le_of_lt (h op hop)
  | joined op' first others =>
    rw [close, Expr.infixed?, Expr.form_join] at hop
    obtain rfl : op' = op := Option.some.inj hop
    exact h.1.le

end Run

/-! ### A run in the arena -/

namespace Draft

open Arena

/-- **A run under way:** its operands have been built, and what is looked up to close it
is there. -/
inductive Carries : Run → Strand → Arena → Arena → Prop
  | single {e : Expr} {r : Ref} {a a' : Arena} (h : Deposits e a r a') :
    Carries (.single e) (.single r) a a'
  | joined {op : BinaryOp} {first : Expr} {others : List Expr} {r : Ref} {rs : List Ref}
    {a a' : Arena} (h : Gathers op (first :: others) a (r :: rs) a')
    (hfirst : a'.span? r = some first.span)
    (hlast : a'.span? (rs.getLastD r) = some (others.getLastD first).span) :
    Carries (.joined op first others) (.joined op r rs) a a'

variable {c c' : Cursor} {a a₁ a₂ : Arena} {r r' : Ref} {run : Run} {strand : Strand} {level : Nat}
  {op : BinaryOp} {x : Expr}

/-- A node between two others that are there spans from the one to the other. -/
theorem addBetween_eq {s s' : Span} (h : a.span? r = some s) (h' : a.span? r' = some s')
    (c : Cursor) (shape : Shape) : addBetween ⟨c, a⟩ r r' shape =
      some ((a.push ⟨s.merge s', shape⟩).2, ⟨c, (a.push ⟨s.merge s', shape⟩).1⟩) := by
  simp only [addBetween, h, h', Option.bind_eq_bind, Option.bind_some]
  rfl

/-- The arena that carries a run has all its lists. -/
theorem Carries.listed (h : Carries run strand a a₁) : a₁.Listed := by
  cases h with
  | single h => exact h.listed
  | joined h => exact h.listed

/-- Behind what has been built of a run there is less room. -/
theorem Carries.room (h : Carries run strand a a₁) {m n : Nat}
    (hroom : a.Room (run.close.size + m) (run.close.listed + n)) : a₁.Room m n := by
  cases h with
  | single h => exact h.room hroom
  | @joined op first others _ _ _ _ h =>
    -- the room for the node on top is not used up yet, so the bound is not reached
    have hkeeps := h.keeps (first.span.merge (others.getLastD first).span)
    obtain ⟨hcells, hlists⟩ := hroom
    rw [Run.close] at hcells hlists
    have hsize := hkeeps.size
    have hlisted := hkeeps.lists
    exact ⟨by omega, by omega⟩

/-- **Closing a run** builds the tree that it makes. -/
theorem Carries.close (h : Carries run strand a a₁) (hroom : a.Room run.close.size run.close.listed)
    (c : Cursor) : ∃ r a₂, Draft.close ⟨c, a₁⟩ strand = some (r, ⟨c, a₂⟩) ∧
      Deposits run.close a r a₂ := by
  cases h with
  | single h => exact ⟨_, _, rfl, h⟩
  | joined h hfirst hlast =>
    exact ⟨_, _, addBetween_eq hfirst hlast c _, (h.keeps _).deposits hroom⟩

/-- **One more operand,** which is in the arena already. -/
theorem Carries.extend (h : Carries run strand a a₁) (hrun : run.OfLevel level)
    (hop : op.level = level) (hx : Deposits x a₁ r a₂)
    (hroom : a.Room (run.extend op x).close.size (run.extend op x).close.listed) (c : Cursor) :
    ∃ strand' a₃, Draft.extend ⟨c, a₂⟩ op r strand = some (strand', ⟨c, a₃⟩) ∧
      Carries (run.extend op x) strand' a a₃ := by
  cases h with
  | @single e _ _ _ h =>
    -- an operand that is tighter than the level is no run that has to be closed first
    have hfree : Store.closedBy op e = false := by
      rw [Store.closedBy, Option.any_eq_false]
      intro op' hop'
      have hlevel := hrun op' hop'
      simp only [beq_eq_false_iff_ne]
      omega
    exact ⟨_, _, rfl, .joined (h.gathers hx hfree) (hx.grown.span? h.span) hx.span⟩
  | @joined op' first others r' rs _ _ h hfirst hlast =>
    have hboth := hrun.close_extend op x
    obtain ⟨hop', hothers⟩ := hrun
    -- a run of two operands at least, which its own operator extends in place
    by_cases hsame : op' = op
    · subst hsame
      obtain ⟨second, others, rfl⟩ := List.exists_cons_of_ne_nil hothers
      refine ⟨.joined op' r' (rs ++ [r]), a₂, by rw [Draft.extend, if_pos rfl], ?_⟩
      rw [Run.extend, if_pos rfl]
      refine .joined (h.concat hx) (hx.grown.span? hfirst) ?_
      rw [List.getLastD_concat, List.getLastD_concat]
      exact hx.span
    · -- the operator closes the run, whose node comes after the operand
      have hclosed : Store.closedBy op (Run.joined op' first others).close = true := by
        rw [Store.closedBy, Run.close, Expr.infixed?, Expr.form_join]
        exact beq_iff_eq.mpr (hop'.trans hop.symm)
      have hkeeps := h.keeps (first.span.merge (others.getLastD first).span)
      have htakes := hkeeps.takes_later hx (hroom.of_le hboth.1 hboth.2)
      rw [Run.extend, if_neg hsame]
      refine ⟨.joined op _ [r], _, ?_, .joined (hkeeps.gathers hx hclosed htakes) ?_ ?_⟩
      · rw [Draft.extend, if_neg hsame, Draft.close,
          addBetween_eq (hx.grown.span? hfirst) (hx.grown.span? hlast)]
        rfl
      · exact (hkeeps.add hx.grown hx.listed htakes).2.2.2
      · exact (extends_push htakes).span? hx.span

/-! ### Procedure by procedure -/

/-- **A procedure that builds in the arena what another one reads:** the tree of the answer, if
there is room for it. -/
def Drafts (read : Draft → Option (Ref × Draft)) (c : Cursor) (e : Expr) (c' : Cursor) : Prop :=
  ∀ a : Arena, a.Listed → a.Room e.size e.listed →
    ∃ r a', read ⟨c, a⟩ = some (r, ⟨c', a'⟩) ∧ Deposits e a r a'

section Steps

variable {total : Nat} {tokens : List Token} {c c' c₁ c₂ c₃ c₄ c₅ : Cursor} {t t' : Token}
  {o : Option Token} {kind : TokenKind} {what : Expectation}
  {e cond yes no operand first receiver : Expr} {answer : Expr × Cursor}

/-- Taking a token that may be there leaves the arena alone. -/
theorem eat_eq (h : c.eat tokens kind = (o, c')) (a : Arena) :
    eat tokens ⟨c, a⟩ kind = (o, ⟨c', a⟩) := by
  simp only [eat, h]

/-- Asking for a token leaves the arena alone, also where that is reported. -/
theorem expect_eq (h : c.expect total tokens kind what = (o, c')) (a : Arena) :
    expect total tokens ⟨c, a⟩ kind what = (o, ⟨c', a⟩) := by
  simp only [expect, h]

/-- What stands in for an operand that is not there is built like any other tree. -/
theorem drafts_missing (c : Cursor) :
    Drafts (fun d => some (d.missing total tokens)) c (c.missing total tokens) c := by
  intro a ha hroom
  exact ⟨_, _, rfl, deposits_leaf .error rfl (fun _ => rfl) rfl ha hroom⟩

/-- **The node of a conditional** on top of its three parts. -/
theorem addBetween_conditional {r₁ r₂ r₃ : Ref} {a₃ : Arena} (hcond : Deposits cond a r₁ a₁)
    (hyes : Deposits yes a₁ r₂ a₂) (hno : Deposits no a₂ r₃ a₃)
    (hroom : a.Room (Expr.conditional (cond.span.merge no.span) cond yes no).size
      (Expr.conditional (cond.span.merge no.span) cond yes no).listed) (c : Cursor) :
    ∃ r a', addBetween ⟨c, a₃⟩ r₁ r₃ (.conditional r₁ r₂ r₃) = some (r, ⟨c, a'⟩) ∧
      Deposits (.conditional (cond.span.merge no.span) cond yes no) a r a' := by
  -- the condition is below both branches, and its span is still what it was
  have hfirst := (hyes.grown.trans hno.grown).span? hcond.span
  have hparts := hcond.cons (hyes.cons (hno.cons (.nil hno.listed)))
  refine ⟨_, _, addBetween_eq hfirst hno.span c _, ?_⟩
  refine (hparts.keeps (.conditional r₁ r₂ r₃ cond yes no) rfl ?_ rfl).deposits hroom
  simp only [Store.lay, hcond.laid, hyes.laid, hno.laid]

/-- **A conditional from its three parts,** which are added one after the other, and then the node
over them. What stands in for a branch may be read in another way than by `expression`. -/
theorem drafts_conditional_of {readNo : Draft → Option (Ref × Draft)}
    (hcond : Drafts (binary total tokens Cursor.loosest) c cond c₁)
    (hyes : Drafts (expression total tokens) c₂ yes c₃) (hno : Drafts readNo c₄ no c₅)
    (hread : ∀ a r₁ a₁ r₂ a₂, binary total tokens Cursor.loosest ⟨c, a⟩ = some (r₁, ⟨c₁, a₁⟩) →
      expression total tokens ⟨c₂, a₁⟩ = some (r₂, ⟨c₃, a₂⟩) →
      conditional total tokens ⟨c, a⟩ =
        (readNo ⟨c₄, a₂⟩).bind fun third =>
          addBetween third.2 r₁ third.1 (.conditional r₁ r₂ third.1)) :
    Drafts (conditional total tokens) c
      (.conditional (cond.span.merge no.span) cond yes no) c₅ := by
  intro a ha hroom
  have hparts : a.Room (cond.size + (yes.size + no.size))
      (cond.listed + (yes.listed + no.listed)) :=
    hroom.of_le (by simp only [Expr.size]; omega) (by simp only [Expr.listed]; omega)
  -- each part is read in the arena that the part before it has left
  obtain ⟨r₁, a₁, hread₁, h₁⟩ := hcond a ha hparts.left
  obtain ⟨r₂, a₂, hread₂, h₂⟩ := hyes a₁ h₁.listed (h₁.room hparts).left
  obtain ⟨r₃, a₃, hread₃, h₃⟩ := hno a₂ h₂.listed (h₂.room (h₁.room hparts))
  obtain ⟨r, a', hadd, h⟩ := addBetween_conditional h₁ h₂ h₃ hroom c₅
  refine ⟨r, a', ?_, h⟩
  rw [hread a r₁ a₁ r₂ a₂ hread₁ hread₂, hread₃]
  exact hadd

/-- **A conditional with both branches.** -/
theorem drafts_conditional (hcond : Drafts (binary total tokens Cursor.loosest) c cond c₁)
    (hquestion : c₁.eat tokens .question = (some t, c₂))
    (hyes : Drafts (expression total tokens) c₂ yes c₃)
    (hcolon : c₃.expect total tokens .colon .colon = (some t', c₄))
    (hno : Drafts (expression total tokens) c₄ no c₅) :
    Drafts (conditional total tokens) c
      (.conditional (cond.span.merge no.span) cond yes no) c₅ := by
  refine drafts_conditional_of hcond hyes hno fun a r₁ a₁ r₂ a₂ hread₁ hread₂ => ?_
  rw [conditional, hread₁]
  simp only [Option.bind_eq_bind, Option.bind_some, eat_eq hquestion, hread₂, expect_eq hcolon]

/-- Where nothing follows the condition, it is the expression. -/
theorem drafts_conditional_of_none (hcond : Drafts (binary total tokens Cursor.loosest) c cond c₁)
    (hquestion : c₁.eat tokens .question = (none, c₂)) :
    Drafts (conditional total tokens) c cond c₂ := by
  intro a ha hroom
  obtain ⟨r, a₁, hread, h⟩ := hcond a ha hroom
  refine ⟨r, a₁, ?_, h⟩
  rw [conditional, hread]
  simp only [Option.bind_eq_bind, Option.bind_some, eat_eq hquestion]

/-- **A conditional without a colon:** what stands for the branch that is missing is a cell like any
other, added before the node. -/
theorem drafts_conditional_without_colon
    (hcond : Drafts (binary total tokens Cursor.loosest) c cond c₁)
    (hquestion : c₁.eat tokens .question = (some t, c₂))
    (hyes : Drafts (expression total tokens) c₂ yes c₃)
    (hcolon : c₃.expect total tokens .colon .colon = (none, c₄)) :
    Drafts (conditional total tokens) c (.conditional
      (cond.span.merge (c₄.missing total tokens).span) cond yes (c₄.missing total tokens)) c₄ := by
  refine drafts_conditional_of hcond hyes (drafts_missing c₄) fun a r₁ a₁ r₂ a₂ hread₁ hread₂ => ?_
  rw [conditional, hread₁]
  simp only [Option.bind_eq_bind, Option.bind_some, eat_eq hquestion, hread₂, expect_eq hcolon]

/-! ### Levels of operators -/

/-- What a loop over a level builds from a run under way. -/
def DraftsChain (total : Nat) (tokens : List Token) (level : Nat) (run : Run) (c : Cursor)
    (e : Expr) (c' : Cursor) : Prop :=
  ∀ a a₁ strand, Carries run strand a a₁ → a.Room e.size e.listed →
    ∃ r a', chain total tokens level strand ⟨c, a₁⟩ = some (r, ⟨c', a'⟩) ∧ Deposits e a r a'

/-- Below the tightest level an operand is read. -/
theorem drafts_binary_of_lt (hlevel : level < Cursor.tightest)
    (h : Drafts (unary total tokens) c e c') : Drafts (binary total tokens level) c e c' := by
  intro a ha hroom
  rw [binary, if_pos hlevel]
  exact h a ha hroom

/-- A level reads its first operand one level below and goes on with the chain. The first operand is
a part of the tree that results, so there is room for it. -/
theorem drafts_binary (hlevel : ¬level < Cursor.tightest)
    (hfirst : Drafts (binary total tokens (level - 1)) c first c₁)
    (hchain : DraftsChain total tokens level (.single first) c₁ e c') (hfits : first.FitsIn e) :
    Drafts (binary total tokens level) c e c' := by
  intro a ha hroom
  obtain ⟨r, a₁, hread, h⟩ := hfirst a ha (hroom.fits hfits)
  rw [binary, if_neg hlevel, hread]
  exact hchain a a₁ (.single r) (.single h) hroom

/-- **A turn over operators:** with the operand in the arena, the loop goes on from the
longer run. -/
theorem chain_again (hrun : run.OfLevel level) (hop : c.operator? tokens level = some op)
    (hoperand : Drafts (binary total tokens (level - 1)) (c.advance tokens) x c')
    (h : Carries run strand a a₁)
    (hroom : a.Room (run.extend op x).close.size (run.extend op x).close.listed) :
    ∃ strand' a₂, chain total tokens level strand ⟨c, a₁⟩ =
      chain total tokens level strand' ⟨c', a₂⟩ ∧ Carries (run.extend op x) strand' a a₂ := by
  -- the operand is read in the arena of the run, so there has to be room for both
  have hboth := hrun.close_extend op x
  have hlevel : op.level = level := by
    simpa using (Option.filter_eq_some_iff.mp hop).2
  obtain ⟨r, a₂, hread, hx⟩ := hoperand a₁ h.listed (h.room (hroom.of_le hboth.1 hboth.2))
  obtain ⟨strand', a₃, hextend, hcarries⟩ := h.extend hrun hlevel hx hroom c'
  refine ⟨strand', a₃, ?_, hcarries⟩
  rw [chain]
  simp only [hop, advance, hread, hextend, Option.bind_eq_bind, Option.bind_some]

/-- Where no operator of the level follows, the strand is closed. -/
theorem chain_done (hop : c.operator? tokens level = none) :
    DraftsChain total tokens level run c run.close c := by
  intro a a₁ strand h hroom
  obtain ⟨r, a₂, hclose, hdeposits⟩ := h.close hroom c
  refine ⟨r, a₂, ?_, hdeposits⟩
  rw [chain]
  simp only [hop, hclose]

/-! ### Unary operators and members -/

/-- Without a sign there is an operand. -/
theorem drafts_unary_of_none (hnone : (c.next? tokens).bind (·.kind.unary?) = none)
    (h : Drafts (accessed total tokens) c e c') : Drafts (unary total tokens) c e c' := by
  intro a ha hroom
  rw [unary]
  -- at the end of the tokens, or at one that is no sign
  split
  next => exact h a ha hroom
  next t hnext =>
    have hop : t.kind.unary? = none := by
      have hnext : c.next? tokens = some t := hnext
      rwa [hnext] at hnone
    simp only [hop]
    exact h a ha hroom

/-- **A sign and its operand:** the cell of the sign comes behind that of the operand. -/
theorem drafts_unary {op : UnaryOp} (hnext : c.next? tokens = some t)
    (hop : t.kind.unary? = some op)
    (h : Drafts (unary total tokens) (c.advance tokens) operand c') :
    Drafts (unary total tokens) c (.unary (t.span.merge operand.span) op operand) c' := by
  intro a ha hroom
  obtain ⟨r, a₁, hread, hoperand⟩ := h a ha (hroom.of_le (by rw [Expr.size]; omega) (le_refl _))
  have hall := hoperand.cons (.nil hoperand.listed)
  refine ⟨_, _, ?_, (hall.keeps (.unary op r operand) rfl ?_ rfl).deposits hroom⟩
  · rw [unary]
    simp only [hnext, hop, advance, hread, hoperand.span, Option.bind_eq_bind, Option.bind_some]
    rfl
  · simp only [Store.lay, hoperand.laid]

/-- What a loop over members builds on top of a receiver. -/
def DraftsMembers (total : Nat) (tokens : List Token) (receiver : Expr) (c : Cursor) (e : Expr)
    (c' : Cursor) : Prop :=
  ∀ a a₁ r, Deposits receiver a r a₁ → a.Room e.size e.listed →
    ∃ r' a', members total tokens r ⟨c, a₁⟩ = some (r', ⟨c', a'⟩) ∧ Deposits e a r' a'

/-- An operand and its members. -/
theorem drafts_accessed (hfirst : Drafts (primary total tokens) c first c₁)
    (hmembers : DraftsMembers total tokens first c₁ e c') (hfits : first.FitsIn e) :
    Drafts (accessed total tokens) c e c' := by
  intro a ha hroom
  obtain ⟨r, a₁, hread, h⟩ := hfirst a ha (hroom.fits hfits)
  rw [accessed, hread]
  exact hmembers a a₁ r h hroom

/-- Without a point the members end. -/
theorem members_done (hdot : c.eat tokens .dot = (none, c')) :
    DraftsMembers total tokens receiver c receiver c' := by
  intro a a₁ r h _
  refine ⟨r, a₁, ?_, h⟩
  rw [members]
  simp only [eat_eq hdot]

/-- A point without a name is passed over. -/
theorem members_without_name (hdot : c.eat tokens .dot = (some t, c₁))
    (hname : c₁.expect total tokens .ident .memberName = (none, c')) :
    DraftsMembers total tokens receiver c receiver c' := by
  intro a a₁ r h _
  refine ⟨r, a₁, ?_, h⟩
  rw [members]
  simp only [eat_eq hdot, expect_eq hname]

/-- **A turn over members, a field:** the loop goes on from the field. -/
theorem members_field {name : Token} (hdot : c.eat tokens .dot = (some t, c₁))
    (hname : c₁.expect total tokens .ident .memberName = (some name, c₂))
    (hopen : c₂.isAt tokens .leftParen = false) (h : Deposits receiver a r a₁)
    (hroom : a.Room (Expr.field (receiver.span.merge name.span) receiver name.text).size
      (Expr.field (receiver.span.merge name.span) receiver name.text).listed) :
    ∃ r' a₂, members total tokens r ⟨c, a₁⟩ = members total tokens r' ⟨c₂, a₂⟩ ∧
      Deposits (.field (receiver.span.merge name.span) receiver name.text) a r' a₂ := by
  have hall := h.cons (.nil h.listed)
  refine ⟨_, _, ?_, (hall.keeps (.field r name.text receiver) rfl ?_ rfl).deposits hroom⟩
  · rw [members]
    simp only [eat_eq hdot, expect_eq hname, h.span, hopen, Bool.false_eq_true, if_false,
      Option.bind_eq_bind, Option.bind_some]
    rfl
  · simp only [Store.lay, h.laid]

/-! ### Calls -/

/-- What the arguments of a call add to the arena: they are built one after the other, and go into
the list storage in the end. -/
def DraftsArguments (total : Nat) (tokens : List Token) (c : Cursor) (args : Arguments)
    (c' : Cursor) : Prop :=
  ∀ a : Arena, a.Listed → a.Room (Expr.sizes args.list) (Expr.listedAll args.list) →
    ∃ rs a', arguments total tokens ⟨c, a⟩ = some (addArguments ⟨c', a'⟩ rs args.close) ∧
      DepositsAll args.list a rs a'

/-- The same of a loop over arguments, with those that have been read before. -/
def DraftsArgumentsFrom (total : Nat) (tokens : List Token) (earlier : List Expr) (c : Cursor)
    (args : Arguments) (c' : Cursor) : Prop :=
  ∀ a a₁ rs, DepositsAll earlier a rs a₁ →
    a.Room (Expr.sizes args.list) (Expr.listedAll args.list) →
    ∃ rs' a', argumentsFrom total tokens rs ⟨c, a₁⟩ = some (addArguments ⟨c', a'⟩ rs' args.close) ∧
      DepositsAll args.list a rs' a'

/-- **The cell of a call** comes right after the list of its arguments: together they are
one node. -/
theorem addCall_addArguments (c : Cursor) (a : Arena) (rs : List Ref) (close span : Span) (r : Ref)
    (name : String) :
    (addArguments ⟨c, a⟩ rs close).2.addCall span r name (addArguments ⟨c, a⟩ rs close).1.stretch =
      ((a.push ⟨span, .call r name rs⟩).2, ⟨c, (a.push ⟨span, .call r name rs⟩).1⟩) := rfl

/-- A list that is closed at once is empty, and no reference is written. -/
theorem drafts_noArguments {close : Token}
    (hclose : (c.advance tokens).eat tokens .rightParen = (some close, c')) :
    DraftsArguments total tokens c ⟨[], close.span⟩ c' := by
  intro a ha _
  refine ⟨[], a, ?_, .nil ha⟩
  rw [arguments]
  simp only [advance, eat_eq hclose]

/-- A list that is not closed at once is read from its first argument. -/
theorem drafts_arguments {args : Arguments}
    (hclose : (c.advance tokens).eat tokens .rightParen = (none, c₁))
    (h : DraftsArgumentsFrom total tokens [] c₁ args c') :
    DraftsArguments total tokens c args c' := by
  intro a ha hroom
  rw [arguments]
  simp only [advance, eat_eq hclose]
  exact h a a [] (.nil ha) hroom

section Argument

variable {earlier : List Expr} {rs : List Ref} (harg : Drafts (expression total tokens) c x c₁)
  (h : DepositsAll earlier a rs a₁)
  (hroom : a.Room (Expr.sizes (earlier ++ [x])) (Expr.listedAll (earlier ++ [x])))

include harg h hroom

/-- One more argument is built. -/
theorem exists_argument : ∃ r a₂, expression total tokens ⟨c, a₁⟩ = some (r, ⟨c₁, a₂⟩) ∧
    a₂.span? r = some x.span ∧ DepositsAll (earlier ++ [x]) a (rs ++ [r]) a₂ := by
  have hboth : a.Room (Expr.sizes earlier + x.size) (Expr.listedAll earlier + x.listed) := by
    rw [Expr.sizes_append, Expr.totals_listedAll.append rfl] at hroom
    exact hroom
  obtain ⟨r, a₂, hread, hx⟩ := harg a₁ h.listed (h.room hboth)
  exact ⟨r, a₂, hread, hx.span, h.concat hx⟩

/-- **A turn over arguments:** behind a comma the loop goes on. -/
theorem argumentsFrom_again (hcomma : c₁.eat tokens .comma = (some t, c')) :
    ∃ rs' a₂, argumentsFrom total tokens rs ⟨c, a₁⟩ = argumentsFrom total tokens rs' ⟨c', a₂⟩ ∧
      DepositsAll (earlier ++ [x]) a rs' a₂ := by
  obtain ⟨r, a₂, hread, -, hall⟩ := exists_argument harg h hroom
  refine ⟨rs ++ [r], a₂, ?_, hall⟩
  rw [argumentsFrom, hread]
  simp only [Option.bind_eq_bind, Option.bind_some, eat_eq hcomma]

/-- **The last turn:** a parenthesis closes the call. -/
theorem argumentsFrom_closed {close : Token} (hcomma : c₁.eat tokens .comma = (none, c₂))
    (hclose : c₂.expect total tokens .rightParen .commaOrClosingParen = (some close, c')) :
    ∃ rs' a₂, argumentsFrom total tokens rs ⟨c, a₁⟩ =
        some (addArguments ⟨c', a₂⟩ rs' close.span) ∧ DepositsAll (earlier ++ [x]) a rs' a₂ := by
  obtain ⟨r, a₂, hread, -, hall⟩ := exists_argument harg h hroom
  refine ⟨rs ++ [r], a₂, ?_, hall⟩
  rw [argumentsFrom, hread]
  simp only [Option.bind_eq_bind, Option.bind_some, eat_eq hcomma, expect_eq hclose]

/-- **The last turn of a call that is not closed:** the argument closes it. -/
theorem argumentsFrom_unclosed (hcomma : c₁.eat tokens .comma = (none, c₂))
    (hclose : c₂.expect total tokens .rightParen .commaOrClosingParen = (none, c')) :
    ∃ rs' a₂, argumentsFrom total tokens rs ⟨c, a₁⟩ = some (addArguments ⟨c', a₂⟩ rs' x.span) ∧
      DepositsAll (earlier ++ [x]) a rs' a₂ := by
  obtain ⟨r, a₂, hread, hspan, hall⟩ := exists_argument harg h hroom
  refine ⟨rs ++ [r], a₂, ?_, hall⟩
  rw [argumentsFrom, hread]
  simp only [Option.bind_eq_bind, Option.bind_some, eat_eq hcomma, expect_eq hclose, hspan]

end Argument

/-- **A turn over members, a method:** the loop goes on from the call. -/
theorem members_method {name : Token} {args : Arguments} (hdot : c.eat tokens .dot = (some t, c₁))
    (hname : c₁.expect total tokens .ident .memberName = (some name, c₂))
    (hopen : c₂.isAt tokens .leftParen = true) (hargs : DraftsArguments total tokens c₂ args c')
    (h : Deposits receiver a r a₁)
    (hroom : a.Room (Expr.call (receiver.span.merge args.close) receiver name.text args.list).size
      (Expr.call (receiver.span.merge args.close) receiver name.text args.list).listed) :
    ∃ r' a₂, members total tokens r ⟨c, a₁⟩ = members total tokens r' ⟨c', a₂⟩ ∧
      Deposits (.call (receiver.span.merge args.close) receiver name.text args.list) a r' a₂ := by
  -- the cell of the call and the places of its list come last
  have hroom₁ : a.Room (receiver.size + Expr.sizes args.list)
      (receiver.listed + Expr.listedAll args.list) :=
    hroom.of_le (by rw [Expr.size]; omega) (by rw [Expr.listed]; omega)
  obtain ⟨rs, a₂, hread, hall⟩ := hargs a₁ h.listed (h.room hroom₁)
  have hparts := h.cons hall
  refine ⟨_, _, ?_,
    (hparts.keeps (.call r name.text rs receiver args.list) ?_ ?_ rfl).deposits hroom⟩
  · rw [members]
    simp only [eat_eq hdot, expect_eq hname, h.span, hopen, if_true, hread, Option.bind_eq_bind,
      Option.bind_some]
    rfl
  · simp [Shape.children, hall.length]
  · simp only [Store.lay, h.laid, hall.laid]

/-! ### Primaries -/

/-- A literal is one cell. -/
theorem drafts_literal {kind : LiteralKind} (hnext : c.next? tokens = some t)
    (hkind : t.kind.literalKind? = some kind) :
    Drafts (primary total tokens) c (.literal t.span kind t.text) (c.advance tokens) := by
  intro a ha hroom
  refine ⟨_, _, ?_, deposits_leaf (.literal kind t.text) rfl (fun _ => rfl) rfl ha hroom⟩
  rw [primary]
  simp only [hnext, hkind]
  rfl

/-- A name is one cell, if no parenthesis follows. -/
theorem drafts_ident (hnext : c.next? tokens = some t) (hident : t.kind = .ident)
    (hopen : (c.advance tokens).isAt tokens .leftParen = false) :
    Drafts (primary total tokens) c (.ident t.span t.text) (c.advance tokens) := by
  intro a ha hroom
  refine ⟨_, _, ?_, deposits_leaf (.ident t.text) rfl (fun _ => rfl) rfl ha hroom⟩
  rw [primary]
  simp only [hnext, hident, advance, hopen]
  rfl

/-- **A call:** the arguments, the list of them and the cell of the call, in this order. -/
theorem drafts_call {args : Arguments} (hnext : c.next? tokens = some t) (hident : t.kind = .ident)
    (hopen : (c.advance tokens).isAt tokens .leftParen = true)
    (hargs : DraftsArguments total tokens (c.advance tokens) args c') :
    Drafts (primary total tokens) c
      (.call (t.span.merge args.close) .absent t.text args.list) c' := by
  intro a ha hroom
  -- a call of a function has no receiver, so only the arguments are below it
  have hroom₁ : a.Room (Expr.sizes args.list) (Expr.listedAll args.list) :=
    hroom.of_le (by rw [Expr.size]; omega) (by rw [Expr.listed]; omega)
  obtain ⟨rs, a₁, hread, hall⟩ := hargs a ha hroom₁
  have hparts := hall.cons_absent
  refine ⟨_, _, ?_,
    (hparts.keeps (.call none t.text rs .absent args.list) ?_ ?_ rfl).deposits hroom⟩
  · rw [primary]
    simp only [hnext, hident, advance, hopen, if_true, hread, Option.bind_eq_bind, Option.bind_some,
      addCall_addArguments]
    rfl
  · simp [Shape.children, hall.length]
  · simp only [Store.lay, Store.release, hall.laid]

/-- **A parenthesis,** closed or not. -/
theorem drafts_paren (hnext : c.next? tokens = some t) (hparen : t.kind = .leftParen)
    (hinner : Drafts (expression total tokens) (c.advance tokens) x c₁) :
    Drafts (primary total tokens) c (Cursor.closeParen total tokens t.span x c₁).1
      (Cursor.closeParen total tokens t.span x c₁).2 := by
  have hliteral : t.kind.literalKind? = none := by rw [hparen]; rfl
  have hident : ¬t.kind = .ident := by rw [hparen]; decide
  -- what the parenthesis is closed by decides its span and nothing else
  have hnode : ∀ (a a₁ : Arena) (r : Ref) (span : Span), Deposits x a r a₁ →
      a.Room (Expr.paren span x).size (Expr.paren span x).listed →
      Deposits (.paren span x) a (a₁.push ⟨span, .paren r⟩).2 (a₁.push ⟨span, .paren r⟩).1 := by
    intro a a₁ r span h hroom
    refine ((h.cons (.nil h.listed)).keeps (.paren r x) rfl ?_ rfl).deposits hroom
    simp only [Store.lay, h.laid]
  -- closed at the token, or, without one, at the end of what is inside
  unfold Cursor.closeParen
  split
  next close c₂ hclose =>
    intro a ha hroom
    obtain ⟨r, a₁, hread, h⟩ := hinner a ha (hroom.of_le (by rw [Expr.size]; omega) (le_refl _))
    refine ⟨_, _, ?_, hnode a a₁ r _ h hroom⟩
    rw [primary]
    simp only [hnext, hliteral, if_neg hident, if_pos hparen, advance, hread, expect_eq hclose,
      Option.bind_eq_bind, Option.bind_some]
    rfl
  next c₂ hclose =>
    intro a ha hroom
    obtain ⟨r, a₁, hread, h⟩ := hinner a ha (hroom.of_le (by rw [Expr.size]; omega) (le_refl _))
    refine ⟨_, _, ?_, hnode a a₁ r _ h hroom⟩
    rw [primary]
    simp only [hnext, hliteral, if_neg hident, if_pos hparen, advance, hread, expect_eq hclose,
      h.span, Option.bind_eq_bind, Option.bind_some]
    rfl

/-- Where no operand begins, what stands for it is a cell, and no token is taken. -/
theorem drafts_missing_primary (hnext : ∀ t, c.next? tokens = some t →
      t.kind.literalKind? = none ∧ t.kind ≠ .ident ∧ t.kind ≠ .leftParen) :
    Drafts (primary total tokens) c (c.missing total tokens)
      (c.record total tokens .expression) := by
  intro a ha hroom
  obtain ⟨r, a₁, hread, h⟩ := drafts_missing (c.record total tokens .expression) a ha hroom
  refine ⟨r, a₁, ?_, h⟩
  rw [primary]
  -- there is no token, or none that an operand begins with
  split
  next => exact hread
  next t ht =>
    obtain ⟨hliteral, hident, hparen⟩ := hnext t ht
    simp only [hliteral, if_neg hident, if_neg hparen]
    exact hread

end Steps

/-! ### All procedures -/

/-- **A turn over operators, with an arena:** another turn follows on the longer run, or the run
is closed. -/
def TurnsChain (total : Nat) (tokens : List Token) (level : Nat) (run : Run) (c : Cursor) :
    Turn Run Expr → Prop
  | .again run' c' => run'.OfLevel level ∧ run.close.FitsIn run'.close ∧
      ∀ a a₁ strand, Carries run strand a a₁ → a.Room run'.close.size run'.close.listed →
        ∃ strand' a₂, chain total tokens level strand ⟨c, a₁⟩ =
          chain total tokens level strand' ⟨c', a₂⟩ ∧ Carries run' strand' a a₂
  | .done e c' => e = run.close ∧ DraftsChain total tokens level run c e c'

/-- **A turn over members, with an arena:** another turn follows on the member, or the receiver is
left as it is. -/
def TurnsMembers (total : Nat) (tokens : List Token) (receiver : Expr) (c : Cursor) :
    Turn Expr Expr → Prop
  | .again e c' => e.infixed? = none ∧ receiver.FitsIn e ∧
      ∀ a a₁ r, Deposits receiver a r a₁ → a.Room e.size e.listed →
        ∃ r' a₂, members total tokens r ⟨c, a₁⟩ = members total tokens r' ⟨c', a₂⟩ ∧
          Deposits e a r' a₂
  | .done e c' => e = receiver ∧ DraftsMembers total tokens receiver c e c'

/-- **A turn over arguments, with an arena:** one more argument has been built, and another turn
follows or the list is written. -/
def TurnsArguments (total : Nat) (tokens : List Token) (earlier : List Expr) (c : Cursor) :
    Turn (List Expr) Arguments → Prop
  | .again args c' => earlier <+: args ∧
      ∀ a a₁ rs, DepositsAll earlier a rs a₁ → a.Room (Expr.sizes args) (Expr.listedAll args) →
        ∃ rs' a₂, argumentsFrom total tokens rs ⟨c, a₁⟩ = argumentsFrom total tokens rs' ⟨c', a₂⟩ ∧
          DepositsAll args a rs' a₂
  | .done args c' => earlier <+: args.list ∧ DraftsArgumentsFrom total tokens earlier c args c'

/-- **What is done behind an argument:** the list goes on behind a comma, is closed, or ends where
the parenthesis is missing. The argument is kept in each of these cases. -/
theorem turnsArguments_afterArgument {total : Nat} {tokens : List Token} {c c₁ : Cursor} {x : Expr}
    (harg : Drafts (expression total tokens) c x c₁) (earlier : List Expr) :
    TurnsArguments total tokens earlier c (Cursor.afterArgument total tokens earlier x c₁) := by
  unfold Cursor.afterArgument
  split
  next t c₂ hcomma =>
    exact ⟨List.prefix_append _ _, fun _ _ _ h hroom => argumentsFrom_again harg h hroom hcomma⟩
  next c₂ hcomma =>
    split
    next close c₃ hclose =>
      exact ⟨List.prefix_append _ _, fun _ _ _ h hroom =>
        argumentsFrom_closed harg h hroom hcomma hclose⟩
    next c₃ hclose =>
      exact ⟨List.prefix_append _ _, fun _ _ _ h hroom =>
        argumentsFrom_unclosed harg h hroom hcomma hclose⟩

/-- A parenthesis is no infix node, closed or not. -/
theorem infixed?_closeParen (total : Nat) (tokens : List Token) (start : Span) (inner : Expr)
    (c : Cursor) : (Cursor.closeParen total tokens start inner c).1.infixed? = none := by
  unfold Cursor.closeParen
  split <;> rfl

/-- Room for all operands is room for the first of them. -/
theorem room_of_front {es fs : List Expr} (h : es <+: fs) {a : Arena}
    (hroom : a.Room (Expr.sizes fs) (Expr.listedAll fs)) :
    a.Room (Expr.sizes es) (Expr.listedAll es) := by
  obtain ⟨more, rfl⟩ := h
  rw [Expr.sizes_append, Expr.totals_listedAll.append rfl] at hroom
  exact hroom.left

variable (total : Nat) (tokens : List Token) in

/-- **Every procedure** builds in the arena what it reads without one. -/
theorem drafts :
    (∀ c r, Cursor.expression total tokens c = some r →
      Drafts (expression total tokens) c r.1 r.2) ∧
    (∀ c r, Cursor.conditional total tokens c = some r →
      Drafts (conditional total tokens) c r.1 r.2) ∧
    (∀ level c r, Cursor.binary total tokens level c = some r →
      Drafts (binary total tokens level) c r.1 r.2 ∧ ∀ op, r.1.infixed? = some op →
      op.level ≤ level) ∧
    (∀ level run c r, Cursor.chain total tokens level run c = some r → run.OfLevel level →
      DraftsChain total tokens level run c r.1 r.2 ∧ run.close.FitsIn r.1 ∧
        ∀ op, r.1.infixed? = some op → op.level ≤ level) ∧
    (∀ level run c t, Cursor.chainTurn total tokens level run c = some t → run.OfLevel level →
      TurnsChain total tokens level run c t) ∧
    (∀ c r, Cursor.unary total tokens c = some r →
      Drafts (unary total tokens) c r.1 r.2 ∧ r.1.infixed? = none) ∧
    (∀ c r, Cursor.accessed total tokens c = some r →
      Drafts (accessed total tokens) c r.1 r.2 ∧ r.1.infixed? = none) ∧
    (∀ receiver c r, Cursor.members total tokens receiver c = some r → receiver.infixed? = none →
      DraftsMembers total tokens receiver c r.1 r.2 ∧ receiver.FitsIn r.1 ∧ r.1.infixed? = none) ∧
    (∀ receiver c t, Cursor.memberTurn total tokens receiver c = some t →
      TurnsMembers total tokens receiver c t) ∧
    (∀ c r, Cursor.arguments total tokens c = some r → DraftsArguments total tokens c r.1 r.2) ∧
    (∀ args c r, Cursor.argumentsFrom total tokens args c = some r →
      DraftsArgumentsFrom total tokens args c r.1 r.2 ∧ args <+: r.1.list) ∧
    (∀ args c t, Cursor.argumentTurn total tokens args c = some t →
      TurnsArguments total tokens args c t) ∧
    (∀ c r, Cursor.primary total tokens c = some r →
      Drafts (primary total tokens) c r.1 r.2 ∧ r.1.infixed? = none) := by
  -- Partial correctness, with the motives of the statement. The procedures that are called are
  -- arbitrary there, and what is said of them is the induction hypothesis.
  refine Cursor.expression.mutual_partial_correctness total tokens _ _ _ _ _ _ _ _ _ _ _ _ _
    ?expression ?conditional ?binary ?chain ?chainTurn ?unary ?accessed ?members ?memberTurn
    ?arguments ?argumentsFrom ?argumentTurn ?primary
  case expression =>
    intro conditional ih c r h a ha hroom
    rw [expression]
    exact ih c r h a ha hroom
  -- what is missing shows where the two tokens are asked for
  case conditional =>
    intro expression binary hexpression hbinary c r h
    simp only [Option.bind_eq_bind, Option.bind_eq_some_iff] at h
    obtain ⟨⟨cond, c₁⟩, hcond, h⟩ := h
    have hfirst := (hbinary _ _ _ hcond).1
    split at h
    next c₂ hquestion =>
      cases h
      exact drafts_conditional_of_none hfirst hquestion
    next t c₂ hquestion =>
      simp only [Option.bind_eq_some_iff] at h
      obtain ⟨⟨yes, c₃⟩, hyes, h⟩ := h
      have hsecond := hexpression _ _ hyes
      split at h
      next t' c₄ hcolon =>
        simp only [Option.bind_eq_some_iff] at h
        obtain ⟨⟨no, c₅⟩, hno, h⟩ := h
        cases h
        exact drafts_conditional hfirst hquestion hsecond hcolon (hexpression _ _ hno)
      next c₄ hcolon =>
        cases h
        exact drafts_conditional_without_colon hfirst hquestion hsecond hcolon
  -- a level is a first operand and a chain, or an operand below the tightest level
  case binary =>
    intro binary chain unary hbinary hchain hunary level c r h
    split at h
    next hlevel =>
      obtain ⟨hdrafts, hplain⟩ := hunary _ _ h
      exact ⟨drafts_binary_of_lt hlevel hdrafts, fun op hop => by rw [hplain] at hop; cases hop⟩
    next hlevel =>
      simp only [Option.bind_eq_bind, Option.bind_eq_some_iff] at h
      obtain ⟨⟨first, c₁⟩, hfirst, h⟩ := h
      obtain ⟨hdrafts, htighter⟩ := hbinary _ _ _ hfirst
      -- the first operand comes from the level below, so the loop may start with it
      have hrun : (Run.single first).OfLevel level := fun op hop => by
        have := htighter op hop
        simp only [Cursor.tightest] at hlevel
        omega
      obtain ⟨hfrom, hfits, hle⟩ := hchain _ _ _ _ h hrun
      exact ⟨drafts_binary hlevel hdrafts hfrom hfits, hle⟩
  -- a turn and the rest of the loop: the run of the next turn fits into the answer
  case chain =>
    intro chain chainTurn hchain hturn level run c r h hrun
    simp only [Option.bind_eq_bind, Option.bind_eq_some_iff] at h
    obtain ⟨turn, hfirst, h⟩ := h
    have hturns := hturn _ _ _ _ hfirst hrun
    split at h
    next run' c' =>
      obtain ⟨hrun', hfits, hagain⟩ := hturns
      obtain ⟨hfrom, hfits', hle⟩ := hchain _ _ _ _ h hrun'
      refine ⟨fun a a₁ strand hcarries hroom => ?_, hfits.trans hfits', hle⟩
      obtain ⟨strand', a₂, hsame, hcarries'⟩ := hagain a a₁ strand hcarries (hroom.fits hfits')
      rw [hsame]
      exact hfrom a a₂ strand' hcarries' hroom
    next e c' =>
      cases h
      obtain ⟨rfl, hdone⟩ := hturns
      exact ⟨hdone, ⟨le_refl _, le_refl _⟩, fun op hop => hrun.level_close hop⟩
  case chainTurn =>
    intro binary hbinary level run c t h hrun
    split at h
    next hop =>
      cases h
      exact ⟨rfl, chain_done hop⟩
    next op hop =>
      simp only [Option.bind_eq_bind, Option.bind_eq_some_iff] at h
      obtain ⟨⟨operand, c₁⟩, hoperand, h⟩ := h
      cases h
      have hlevel : op.level = level := by simpa using (Option.filter_eq_some_iff.mp hop).2
      exact ⟨.extend hlevel run operand, hrun.fits op operand, fun a a₁ strand hcarries hroom =>
        chain_again hrun hop (hbinary _ _ _ hoperand).1 hcarries hroom⟩
  case unary =>
    intro unary accessed hunary haccessed c r h
    split at h
    next hnext =>
      obtain ⟨hdrafts, hplain⟩ := haccessed _ _ h
      exact ⟨drafts_unary_of_none (by rw [hnext]; rfl) hdrafts, hplain⟩
    next t hnext =>
      split at h
      next hop =>
        obtain ⟨hdrafts, hplain⟩ := haccessed _ _ h
        exact ⟨drafts_unary_of_none (by rw [hnext]; exact hop) hdrafts, hplain⟩
      next op hop =>
        simp only [Option.bind_eq_bind, Option.bind_eq_some_iff] at h
        obtain ⟨⟨operand, c₁⟩, hoperand, h⟩ := h
        cases h
        exact ⟨drafts_unary hnext hop (hunary _ _ hoperand).1, rfl⟩
  case accessed =>
    intro members primary hmembers hprimary c r h
    simp only [Option.bind_eq_bind, Option.bind_eq_some_iff] at h
    obtain ⟨⟨first, c₁⟩, hfirst, h⟩ := h
    obtain ⟨hdrafts, hplain⟩ := hprimary _ _ hfirst
    obtain ⟨hfrom, hfits, hplain'⟩ := hmembers _ _ _ h hplain
    exact ⟨drafts_accessed hdrafts hfrom hfits, hplain'⟩
  case members =>
    intro members memberTurn hmembers hturn receiver c r h hplain
    simp only [Option.bind_eq_bind, Option.bind_eq_some_iff] at h
    obtain ⟨turn, hfirst, h⟩ := h
    have hturns := hturn _ _ _ hfirst
    split at h
    next e c' =>
      obtain ⟨hplain', hfits, hagain⟩ := hturns
      obtain ⟨hfrom, hfits', hplain''⟩ := hmembers _ _ _ h hplain'
      refine ⟨fun a a₁ r hreceiver hroom => ?_, hfits.trans hfits', hplain''⟩
      obtain ⟨r', a₂, hsame, hmember⟩ := hagain a a₁ r hreceiver (hroom.fits hfits')
      rw [hsame]
      exact hfrom a a₂ r' hmember hroom
    next e c' =>
      cases h
      obtain ⟨rfl, hdone⟩ := hturns
      exact ⟨hdone, ⟨le_refl _, le_refl _⟩, hplain⟩
  -- a point may be missing, or its name; a member is a field or a method
  case memberTurn =>
    intro arguments harguments receiver c t h
    split at h
    next c₁ hdot =>
      cases h
      exact ⟨rfl, members_done hdot⟩
    next dot c₁ hdot =>
      split at h
      next c₂ hname =>
        cases h
        exact ⟨rfl, members_without_name hdot hname⟩
      next name c₂ hname =>
        split at h
        next hopen =>
          simp only [Option.bind_eq_bind, Option.bind_eq_some_iff] at h
          obtain ⟨⟨args, c₃⟩, hargs, h⟩ := h
          cases h
          have hfits : receiver.FitsIn (.call (receiver.span.merge args.close) receiver name.text
              args.list) := ⟨by rw [Expr.size]; omega, by rw [Expr.listed]; omega⟩
          exact ⟨rfl, hfits, fun a a₁ r hreceiver hroom =>
            members_method hdot hname hopen (harguments _ _ hargs) hreceiver hroom⟩
        next hopen =>
          cases h
          have hfits : receiver.FitsIn
              (.field (receiver.span.merge name.span) receiver name.text) :=
            ⟨by rw [Expr.size]; omega, le_refl _⟩
          exact ⟨rfl, hfits, fun a a₁ r hreceiver hroom =>
            members_field hdot hname (by simpa using hopen) hreceiver hroom⟩
  case arguments =>
    intro argumentsFrom hfrom c r h
    split at h
    next close c₁ hclose =>
      cases h
      exact drafts_noArguments hclose
    next c₁ hclose => exact drafts_arguments hclose (hfrom _ _ _ h).1
  -- the arguments so far are the first of those of the answer, so there is room for them
  case argumentsFrom =>
    intro argumentsFrom argumentTurn hfrom hturn args c r h
    simp only [Option.bind_eq_bind, Option.bind_eq_some_iff] at h
    obtain ⟨turn, hfirst, h⟩ := h
    have hturns := hturn _ _ _ hfirst
    split at h
    next args' c' =>
      obtain ⟨hfront, hagain⟩ := hturns
      obtain ⟨hrest, hfront'⟩ := hfrom _ _ _ h
      refine ⟨fun a a₁ rs hall hroom => ?_, hfront.trans hfront'⟩
      obtain ⟨rs', a₂, hsame, hall'⟩ := hagain a a₁ rs hall (room_of_front hfront' hroom)
      rw [hsame]
      exact hrest a a₂ rs' hall' hroom
    next args' c' =>
      cases h
      exact hturns.symm
  case argumentTurn =>
    intro expression hexpression args c t h
    simp only [Option.bind_eq_bind, Option.bind_eq_some_iff] at h
    obtain ⟨⟨arg, c₁⟩, harg, h⟩ := h
    cases h
    exact turnsArguments_afterArgument (hexpression _ _ harg) args
  -- one branch for each token that an operand begins with
  case primary =>
    intro expression arguments hexpression harguments c r h
    split at h
    next hnext =>
      cases h
      refine ⟨drafts_missing_primary fun t ht => ?_, rfl⟩
      rw [hnext] at ht
      cases ht
    next t hnext =>
      split at h
      next kind hkind =>
        cases h
        exact ⟨drafts_literal hnext hkind, rfl⟩
      next hliteral =>
        split at h
        next hident =>
          split at h
          next hopen =>
            simp only [Option.bind_eq_bind, Option.bind_eq_some_iff] at h
            obtain ⟨⟨args, c₁⟩, hargs, h⟩ := h
            cases h
            exact ⟨drafts_call hnext hident hopen (harguments _ _ hargs), rfl⟩
          next hopen =>
            cases h
            exact ⟨drafts_ident hnext hident (by simpa using hopen), rfl⟩
        next hident =>
          split at h
          next hparen =>
            simp only [Option.bind_eq_bind, Option.bind_eq_some_iff] at h
            obtain ⟨⟨inner, c₁⟩, hinner, h⟩ := h
            cases h
            exact ⟨drafts_paren hnext hparen (hexpression _ _ hinner),
              infixed?_closeParen total tokens t.span inner c₁⟩
          next hparen =>
            cases h
            refine ⟨drafts_missing_primary fun t' ht' => ?_, rfl⟩
            obtain rfl := Option.some.inj (hnext.symm.trans ht')
            exact ⟨hliteral, hident, hparen⟩

end Draft

end OperandOrder
