import OperandOrder.Parser.Descent

/-!
# The cursor goes forward

On an error nothing is passed over, so a dozen calls may be made one inside the other at one and the
same token. They do not go round in a circle: each is to a procedure further down in the grammar
(`Procedure.rank`), and what begins anew, as a loop does or an expression in parentheses, begins
behind a token that has been passed over (`Calls.onward`). So every call goes down in the number of
tokens that are left and then in the place in the grammar (`Calls.below`), and there is no endless
way down (`wellFounded_calls`).

Where a call is made depends on where the calls before it have led to. It is enough to know of those
what their answers are like if they have any (`partial_correctness`): an answer leaves the cursor
where it was or further on, and if it leaves it where it was, the operand is missing and that has
been recorded. This goes by induction over the fixpoint, which asks for no end.
-/

namespace OperandOrder

namespace Cursor

variable {total : Nat} {tokens : List Token} {c c' c'' : Cursor} {kind : TokenKind} {t : Token}

/-! ### Going forward -/

/-- **Going forward:** a cursor does not go back, it does not go past the end of the tokens, and no
error is taken back. -/
structure Forward (tokens : List Token) (c c' : Cursor) : Prop where
  le : c.pos ≤ c'.pos
  bounded : c'.pos ≤ max c.pos tokens.length
  errors : c.errors <+: c'.errors

/-- The number of tokens that are left. -/
def remaining (tokens : List Token) (c : Cursor) : Nat := tokens.length - c.pos

namespace Forward

/-- Nothing has been taken. -/
theorem refl (tokens : List Token) (c : Cursor) : c.Forward tokens c :=
  ⟨Nat.le_refl _, Nat.le_max_left _ _, List.prefix_rfl⟩

/-- One step forward after another. -/
theorem trans (h : c.Forward tokens c') (h' : c'.Forward tokens c'') : c.Forward tokens c'' := by
  obtain ⟨hle, hbounded, herrors⟩ := h
  obtain ⟨hle', hbounded', herrors'⟩ := h'
  exact ⟨Nat.le_trans hle hle', by omega, herrors.trans herrors'⟩

/-- Going forward leaves no more tokens than there were. -/
theorem remaining_le (h : c.Forward tokens c') : c'.remaining tokens ≤ c.remaining tokens :=
  Nat.sub_le_sub_left h.le _

end Forward

/-- **Going forward by one token or more.** -/
structure Passes (tokens : List Token) (c c' : Cursor) : Prop extends c.Forward tokens c' where
  lt : c.pos < c'.pos

namespace Passes

/-- Past a token, and then forward. -/
theorem trans_forward (h : c.Passes tokens c') (h' : c'.Forward tokens c'') : c.Passes tokens c'' :=
  ⟨h.toForward.trans h', Nat.lt_of_lt_of_le h.lt h'.le⟩

/-- Forward, and then past a token. -/
theorem forward_trans (h : c.Forward tokens c') (h' : c'.Passes tokens c'') : c.Passes tokens c'' :=
  ⟨h.trans h'.toForward, Nat.lt_of_le_of_lt h.le h'.lt⟩

/-- Fewer tokens are left. -/
theorem remaining_lt (h : c.Passes tokens c') : c'.remaining tokens < c.remaining tokens := by
  obtain ⟨⟨-, hbounded, -⟩, hlt⟩ := h
  unfold remaining
  omega

end Passes

/-! ### One token -/

theorem pos_lt_of_next? (h : c.next? tokens = some t) : c.pos < tokens.length :=
  (List.getElem?_eq_some_iff.mp h).1

/-- A step to the next token goes forward, also at the end, where it does nothing. -/
theorem forward_advance : c.Forward tokens (c.advance tokens) := by
  unfold advance
  split
  next h => exact ⟨Nat.le_succ _, Nat.le_trans h (Nat.le_max_right _ _), List.prefix_rfl⟩
  next => exact .refl tokens c

/-- Where there is a token, a step passes it. -/
theorem advance_of_next? (h : c.next? tokens = some t) : c.advance tokens = ⟨c.pos + 1, c.errors⟩ :=
  if_pos (pos_lt_of_next? h)

/-- Where a token stands, advancing passes it over. -/
theorem passes_advance (h : c.next? tokens = some t) : c.Passes tokens (c.advance tokens) := by
  refine ⟨forward_advance, ?_⟩
  rw [advance_of_next? h]
  exact Nat.lt_succ_self _

/-- An error that is recorded takes no token. -/
theorem forward_record (what : Expectation) : c.Forward tokens (c.record total tokens what) :=
  ⟨Nat.le_refl _, Nat.le_max_left _ _, List.prefix_append _ _⟩

/-- A kind that is looked at is that of the next token. -/
theorem isAt_iff : c.isAt tokens kind = true ↔ ∃ t, c.next? tokens = some t ∧ t.kind = kind := by
  simp [isAt, Option.any_eq_true]

/-- An operator is a token. -/
theorem exists_next?_of_operator? {level : Nat} {op : BinaryOp}
    (h : c.operator? tokens level = some op) : ∃ t, c.next? tokens = some t := by
  obtain ⟨hop, -⟩ := Option.filter_eq_some_iff.mp h
  obtain ⟨t, ht, -⟩ := Option.bind_eq_some_iff.mp hop
  exact ⟨t, ht⟩

/-- What was eaten stood at the cursor, and was passed over. -/
theorem eat_eq_some (h : c.eat tokens kind = (some t, c')) :
    c.next? tokens = some t ∧ t.kind = kind ∧ c' = c.advance tokens := by
  unfold eat at h
  split at h
  next hat =>
    obtain ⟨hnext, rfl⟩ := Prod.mk.inj h
    obtain ⟨t', ht', hkind⟩ := isAt_iff.mp hat
    obtain rfl := Option.some.inj (ht'.symm.trans hnext)
    exact ⟨hnext, hkind, rfl⟩
  next => exact absurd (congrArg Prod.fst h) (by simp)

/-- A token that may be missing is passed over without notice. -/
theorem eat_eq_none (h : c.eat tokens kind = (none, c')) : c.isAt tokens kind = false ∧ c' = c := by
  unfold eat at h
  split at h
  next hat =>
    obtain ⟨t, ht, -⟩ := isAt_iff.mp hat
    exact absurd (congrArg Prod.fst h) (by simp [ht])
  next hat => exact ⟨by simpa using hat, (congrArg Prod.snd h).symm⟩

/-- A token that was asked for has been taken. -/
theorem expect_eq_some {what : Expectation} (h : c.expect total tokens kind what = (some t, c')) :
    c.next? tokens = some t ∧ t.kind = kind ∧ c' = c.advance tokens := by
  unfold expect at h
  split at h
  next heat =>
    cases h
    exact eat_eq_some heat
  next => exact absurd (congrArg Prod.fst h) (by simp)

/-- A token that was asked for in vain has been reported. -/
theorem expect_eq_none {what : Expectation} (h : c.expect total tokens kind what = (none, c')) :
    c.isAt tokens kind = false ∧ c' = c.record total tokens what := by
  unfold expect at h
  split at h
  next => exact absurd (congrArg Prod.fst h) (by simp)
  next heat =>
    obtain ⟨hat, rfl⟩ := eat_eq_none heat
    exact ⟨hat, (congrArg Prod.snd h).symm⟩

/-- Taking a token goes past it. -/
theorem passes_of_eat (h : c.eat tokens kind = (some t, c')) : c.Passes tokens c' := by
  obtain ⟨hnext, -, rfl⟩ := eat_eq_some h
  exact passes_advance hnext

/-- Taking a token that was asked for goes past it. -/
theorem passes_of_expect {what : Expectation} (h : c.expect total tokens kind what = (some t, c')) :
    c.Passes tokens c' := by
  obtain ⟨hnext, -, rfl⟩ := expect_eq_some h
  exact passes_advance hnext

/-- Asking for a token goes forward, whether it is there or not. -/
theorem forward_of_expect {what : Expectation} {o : Option Token}
    (h : c.expect total tokens kind what = (o, c')) : c.Forward tokens c' := by
  cases o with
  | none =>
    obtain ⟨-, rfl⟩ := expect_eq_none h
    exact forward_record what
  | some t => exact (passes_of_expect h).toForward

/-- Taking an operator goes past it. -/
theorem passes_of_operator? {level : Nat} {op : BinaryOp} (h : c.operator? tokens level = some op) :
    c.Passes tokens (c.advance tokens) := by
  obtain ⟨t, ht⟩ := exists_next?_of_operator? h
  exact passes_advance ht

end Cursor

/-- Where a turn leaves the cursor. -/
def Turn.cursor {σ α : Type} : Turn σ α → Cursor
  | .again _ c | .done _ c => c

/-! ### What reading gives, if it gives anything -/

namespace Descent

open Cursor

variable (total : Nat) (tokens : List Token)

/-- **Reading an operand** goes forward. If it passes no token over, the operand is missing and that
is the only error. -/
structure Reads (c : Cursor) (r : Expr × Cursor) : Prop where
  forward : c.Forward tokens r.2
  still : r.2.pos = c.pos → r = (c.missing total tokens, c.record total tokens .expression)

/-- **Going on behind** what has been read goes forward, and changes nothing if it passes no
token over. -/
structure GoesOn (tokens : List Token) (e : Expr) (c : Cursor) (r : Expr × Cursor) : Prop where
  forward : c.Forward tokens r.2
  still : r.2.pos = c.pos → r = (e, c)

/-- **A turn of a loop** goes forward. If another turn follows, it has passed a token over. -/
def TurnsOn {σ α : Type} (tokens : List Token) (c : Cursor) (ends : α → Cursor → Prop) :
    Turn σ α → Prop
  | .again _ c' => c.Passes tokens c'
  | .done a c' => c.Forward tokens c' ∧ ends a c'

variable {total tokens} {c c' c₁ : Cursor} {e : Expr} {r : Expr × Cursor}

/-- A turn of a loop goes forward, whether the loop ends with it or not. -/
theorem TurnsOn.forward {σ α : Type} {ends : α → Cursor → Prop} {t : Turn σ α}
    (h : TurnsOn tokens c ends t) : c.Forward tokens t.cursor := by
  cases t with
  | again state c' => exact Cursor.Passes.toForward h
  | done a c' => exact h.1

/-- Behind a token that was passed over, nothing is still as it was. -/
theorem Reads.of_passes (h : c.Passes tokens r.2) : Reads total tokens c r :=
  ⟨h.toForward, fun hstill => absurd h.lt (by omega)⟩

theorem GoesOn.of_passes (h : c.Passes tokens r.2) : GoesOn tokens e c r :=
  ⟨h.toForward, fun hstill => absurd h.lt (by omega)⟩

theorem GoesOn.refl (tokens : List Token) (e : Expr) (c : Cursor) : GoesOn tokens e c (e, c) :=
  ⟨.refl tokens c, fun _ => rfl⟩

/-- An operand with what follows it. -/
theorem Reads.goesOn (h : Reads total tokens c (e, c₁)) (h' : GoesOn tokens e c₁ r) :
    Reads total tokens c r := by
  refine ⟨h.forward.trans h'.forward, fun hstill => ?_⟩
  -- if no token was passed over in the end, none was on the way
  have hle : c.pos ≤ c₁.pos := h.forward.le
  have hle' : c₁.pos ≤ r.2.pos := h'.forward.le
  rw [h'.still (by omega)]
  exact h.still (show c₁.pos = c.pos by omega)

/-- An operand that is not there. -/
theorem Reads.missing (total : Nat) (tokens : List Token) (c : Cursor) :
    Reads total tokens c (c.missing total tokens, c.record total tokens .expression) :=
  ⟨Cursor.forward_record _, fun _ => rfl⟩

/-- How a turn over arguments ends without passing a token over: the argument is missing, and so is
what should close the call. -/
def EndsArguments (total : Nat) (tokens : List Token) (args : List Expr) (c : Cursor)
    (a : Arguments) (c' : Cursor) : Prop :=
  c'.pos = c.pos → a = ⟨args ++ [c.missing total tokens], (c.missing total tokens).span⟩ ∧
    c' = (c.record total tokens .expression).record total tokens .commaOrClosingParen

/-- Closing a parenthesis goes forward, also where the sign is missing. -/
theorem forward_closeParen (start : Span) (inner : Expr) :
    c.Forward tokens (closeParen total tokens start inner c).2 := by
  unfold closeParen
  split
  next hclose => exact Cursor.forward_of_expect hclose
  next hclose => exact Cursor.forward_of_expect hclose

/-- A turn passes an argument over, or a comma, or what closes the call, or nothing at all. -/
theorem Reads.turnsOn_afterArgument (h : Reads total tokens c (e, c₁)) (args : List Expr) :
    TurnsOn tokens c (EndsArguments total tokens args c)
      (afterArgument total tokens args e c₁) := by
  unfold afterArgument
  split
  next heat => exact .forward_trans h.forward (Cursor.passes_of_eat heat)
  next heat =>
    obtain ⟨-, rfl⟩ := Cursor.eat_eq_none heat
    split
    next c₂ hclose =>
      have hpasses : c.Passes tokens c₂ := .forward_trans h.forward (Cursor.passes_of_expect hclose)
      exact ⟨hpasses.toForward, fun hstill => absurd hpasses.lt (by omega)⟩
    next hclose =>
      obtain ⟨-, rfl⟩ := Cursor.expect_eq_none hclose
      refine ⟨h.forward.trans (Cursor.forward_record _), fun hstill => ?_⟩
      obtain ⟨rfl, rfl⟩ := Prod.mk.inj (h.still hstill)
      exact ⟨rfl, rfl⟩

variable (total tokens) in

/-- **Nothing goes back.** Whatever a procedure answers, it has gone forward. -/
theorem partial_correctness :
    (∀ c r, expression total tokens c = some r → Reads total tokens c r) ∧
    (∀ c r, conditional total tokens c = some r → Reads total tokens c r) ∧
    (∀ level c r, binary total tokens level c = some r → Reads total tokens c r) ∧
    (∀ level run c r, chain total tokens level run c = some r → GoesOn tokens run.close c r) ∧
    (∀ level run c t, chainTurn total tokens level run c = some t →
      TurnsOn tokens c (fun e c' => e = run.close ∧ c' = c ∧ c.operator? tokens level = none) t) ∧
    (∀ c r, unary total tokens c = some r → Reads total tokens c r) ∧
    (∀ c r, accessed total tokens c = some r → Reads total tokens c r) ∧
    (∀ receiver c r, members total tokens receiver c = some r → GoesOn tokens receiver c r) ∧
    (∀ receiver c t, memberTurn total tokens receiver c = some t →
      TurnsOn tokens c
        (fun e c' => e = receiver ∧ (c'.pos = c.pos → c' = c ∧ c.isAt tokens .dot = false)) t) ∧
    (∀ c r, arguments total tokens c = some r → c.Forward tokens r.2) ∧
    (∀ args c r, argumentsFrom total tokens args c = some r → c.Forward tokens r.2) ∧
    (∀ args c t, argumentTurn total tokens args c = some t →
      TurnsOn tokens c (EndsArguments total tokens args c) t) ∧
    (∀ c r, primary total tokens c = some r → Reads total tokens c r) := by
  refine expression.mutual_partial_correctness total tokens _ _ _ _ _ _ _ _ _ _ _ _ _
    ?expression ?conditional ?binary ?chain ?chainTurn ?unary ?accessed ?members ?memberTurn
      ?arguments ?argumentsFrom
    ?argumentTurn ?primary
  case expression => exact fun _ ih => ih
  case conditional =>
    intro expression binary hexpression hbinary c r h
    simp only [Option.bind_eq_bind, Option.bind_eq_some_iff] at h
    obtain ⟨⟨cond, c₁⟩, hcond, h⟩ := h
    have hreads := hbinary _ _ _ hcond
    split at h
    next c₂ heat =>
      obtain ⟨-, rfl⟩ := Cursor.eat_eq_none heat
      cases h
      exact hreads
    next t c₂ heat =>
      simp only [Option.bind_eq_some_iff] at h
      obtain ⟨⟨yes, c₃⟩, hyes, h⟩ := h
      have hpasses : c.Passes tokens c₃ := .forward_trans hreads.forward
        ((Cursor.passes_of_eat heat).trans_forward (hexpression _ _ hyes).forward)
      split at h
      next t' c₄ hcolon =>
        simp only [Option.bind_eq_some_iff] at h
        obtain ⟨⟨no, c₅⟩, hno, h⟩ := h
        cases h
        exact .of_passes (hpasses.trans_forward
          ((Cursor.forward_of_expect hcolon).trans (hexpression _ _ hno).forward))
      next c₄ hcolon =>
        cases h
        exact .of_passes (hpasses.trans_forward (Cursor.forward_of_expect hcolon))
  case binary =>
    intro binary chain unary hbinary hchain hunary level c r h
    split at h
    next => exact hunary _ _ h
    next =>
      simp only [Option.bind_eq_bind, Option.bind_eq_some_iff] at h
      obtain ⟨⟨first, c₁⟩, hfirst, h⟩ := h
      exact (hbinary _ _ _ hfirst).goesOn (hchain _ _ _ _ h)
  case chain =>
    intro chain chainTurn hchain hturn level run c r h
    simp only [Option.bind_eq_bind, Option.bind_eq_some_iff] at h
    obtain ⟨turn, hfirst, h⟩ := h
    have hsteps := hturn _ _ _ _ hfirst
    split at h
    next run' c' => exact .of_passes (hsteps.trans_forward (hchain _ _ _ _ h).forward)
    next e c' =>
      cases h
      obtain ⟨-, rfl, rfl, -⟩ := hsteps
      exact .refl tokens _ _
  case chainTurn =>
    intro binary hbinary level run c t h
    split at h
    next hop =>
      cases h
      exact ⟨.refl tokens c, rfl, rfl, hop⟩
    next op hop =>
      simp only [Option.bind_eq_bind, Option.bind_eq_some_iff] at h
      obtain ⟨⟨operand, c₁⟩, hoperand, h⟩ := h
      cases h
      exact (Cursor.passes_of_operator? hop).trans_forward (hbinary _ _ _ hoperand).forward
  case unary =>
    intro unary accessed hunary haccessed c r h
    split at h
    next => exact haccessed _ _ h
    next t hnext =>
      split at h
      next => exact haccessed _ _ h
      next op _ =>
        simp only [Option.bind_eq_bind, Option.bind_eq_some_iff] at h
        obtain ⟨⟨operand, c₁⟩, hoperand, h⟩ := h
        cases h
        exact .of_passes ((Cursor.passes_advance hnext).trans_forward (hunary _ _ hoperand).forward)
  case accessed =>
    intro members primary hmembers hprimary c r h
    simp only [Option.bind_eq_bind, Option.bind_eq_some_iff] at h
    obtain ⟨⟨first, c₁⟩, hfirst, h⟩ := h
    exact (hprimary _ _ hfirst).goesOn (hmembers _ _ _ h)
  case members =>
    intro members memberTurn hmembers hturn receiver c r h
    simp only [Option.bind_eq_bind, Option.bind_eq_some_iff] at h
    obtain ⟨turn, hfirst, h⟩ := h
    have hsteps := hturn _ _ _ hfirst
    split at h
    next e c' => exact .of_passes (hsteps.trans_forward (hmembers _ _ _ h).forward)
    next e c' =>
      cases h
      obtain ⟨hforward, rfl, hstill⟩ := hsteps
      exact ⟨hforward, fun hsame => congrArg (e, ·) (hstill hsame).1⟩
  case memberTurn =>
    intro arguments harguments receiver c t h
    split at h
    next c₁ heat =>
      obtain ⟨hat, rfl⟩ := Cursor.eat_eq_none heat
      cases h
      exact ⟨.refl tokens _, rfl, fun _ => ⟨rfl, hat⟩⟩
    next dot c₁ heat =>
      have hdot := Cursor.passes_of_eat heat
      split at h
      next c₂ hname =>
        cases h
        have hpasses := hdot.trans_forward (Cursor.forward_of_expect hname)
        exact ⟨hpasses.toForward, rfl, fun hstill => absurd hpasses.lt (by omega)⟩
      next name c₂ hname =>
        have hpasses := hdot.trans_forward (Cursor.forward_of_expect hname)
        split at h
        next =>
          simp only [Option.bind_eq_bind, Option.bind_eq_some_iff] at h
          obtain ⟨⟨args, c₃⟩, hargs, h⟩ := h
          cases h
          exact hpasses.trans_forward (harguments _ _ hargs)
        next =>
          cases h
          exact hpasses
  case arguments =>
    intro argumentsFrom hfrom c r h
    split at h
    next close c₁ heat =>
      cases h
      exact Cursor.forward_advance.trans (Cursor.passes_of_eat heat).toForward
    next c₁ heat =>
      obtain ⟨-, rfl⟩ := Cursor.eat_eq_none heat
      exact Cursor.forward_advance.trans (hfrom _ _ _ h)
  case argumentsFrom =>
    intro argumentsFrom argumentTurn hfrom hturn args c r h
    simp only [Option.bind_eq_bind, Option.bind_eq_some_iff] at h
    obtain ⟨turn, hfirst, h⟩ := h
    have hsteps := hturn _ _ _ hfirst
    split at h
    next args' c' => exact hsteps.toForward.trans (hfrom _ _ _ h)
    next a c' =>
      cases h
      exact hsteps.1
  case argumentTurn =>
    intro expression hexpression args c t h
    simp only [Option.bind_eq_bind, Option.bind_eq_some_iff] at h
    obtain ⟨⟨arg, c₁⟩, harg, h⟩ := h
    cases h
    exact (hexpression _ _ harg).turnsOn_afterArgument args
  case primary =>
    intro expression arguments hexpression harguments c r h
    split at h
    next =>
      cases h
      exact .missing total tokens c
    next t hnext =>
      have hpasses := Cursor.passes_advance hnext
      split at h
      next kind _ =>
        cases h
        exact .of_passes hpasses
      next =>
        split at h
        next =>
          -- a name, and a call if an opening parenthesis follows
          split at h
          next =>
            simp only [Option.bind_eq_bind, Option.bind_eq_some_iff] at h
            obtain ⟨⟨args, c₁⟩, hargs, h⟩ := h
            cases h
            exact .of_passes (hpasses.trans_forward (harguments _ _ hargs))
          next =>
            cases h
            exact .of_passes hpasses
        next =>
          split at h
          next =>
            simp only [Option.bind_eq_bind, Option.bind_eq_some_iff] at h
            obtain ⟨⟨inner, c₁⟩, hinner, h⟩ := h
            cases h
            exact .of_passes (hpasses.trans_forward
              ((hexpression _ _ hinner).forward.trans (forward_closeParen _ _)))
          next =>
            cases h
            exact .missing total tokens c

/-! ### What calls what -/

/-- The procedures, with what they are given besides the cursor. -/
inductive Procedure where
  | expression
  | conditional
  | binary (level : Nat)
  | chain (level : Nat) (run : Run)
  | chainTurn (level : Nat) (run : Run)
  | unary
  | accessed
  | members (receiver : Expr)
  | memberTurn (receiver : Expr)
  | arguments
  | argumentsFrom (args : List Expr)
  | argumentTurn (args : List Expr)
  | primary

/-- **The place of a procedure in the grammar.** Without passing a token over, a procedure calls
only those below it: a level of binary operators the next tighter one. -/
def Procedure.rank : Procedure → Nat
  | .primary | .memberTurn _ | .chainTurn .. => 0
  | .members _ | .chain .. => 1
  | .accessed => 2
  | .unary => 3
  | .binary level => 4 + level
  | .conditional => 5 + loosest
  | .expression => 6 + loosest
  | .argumentTurn _ => 7 + loosest
  | .argumentsFrom _ => 8 + loosest
  | .arguments => 9 + loosest

/-- A procedure at a cursor. -/
structure Call where
  procedure : Procedure
  cursor : Cursor

/-- **The measure:** the number of tokens that are left, and then the place in the grammar. -/
def Call.measure (tokens : List Token) (call : Call) : Nat × Nat :=
  (call.cursor.remaining tokens, call.procedure.rank)

/-- **The calls that a procedure makes** on its way, each where the calls before it have led to. -/
inductive Calls (total : Nat) (tokens : List Token) : Call → Call → Prop
  | expression (c : Cursor) : Calls total tokens ⟨.expression, c⟩ ⟨.conditional, c⟩
  | condition (c : Cursor) : Calls total tokens ⟨.conditional, c⟩ ⟨.binary loosest, c⟩
  | yes {c c₁ c₂ : Cursor} {cond : Expr} {t : Token}
    (hcond : binary total tokens loosest c = some (cond, c₁))
    (ht : c₁.eat tokens .question = (some t, c₂)) :
    Calls total tokens ⟨.conditional, c⟩ ⟨.expression, c₂⟩
  | no {c c₁ c₂ c₃ c₄ : Cursor} {cond yes : Expr} {t t' : Token}
    (hcond : binary total tokens loosest c = some (cond, c₁))
    (ht : c₁.eat tokens .question = (some t, c₂))
    (hyes : expression total tokens c₂ = some (yes, c₃))
    (ht' : c₃.expect total tokens .colon .colon = (some t', c₄)) :
    Calls total tokens ⟨.conditional, c⟩ ⟨.expression, c₄⟩
  | tightest {level : Nat} (c : Cursor) (hlevel : level < tightest) :
    Calls total tokens ⟨.binary level, c⟩ ⟨.unary, c⟩
  | tighter {level : Nat} (c : Cursor) (hlevel : ¬level < tightest) :
    Calls total tokens ⟨.binary level, c⟩ ⟨.binary (level - 1), c⟩
  | operators {level : Nat} {c c₁ : Cursor} {first : Expr} (hlevel : ¬level < tightest)
    (hfirst : binary total tokens (level - 1) c = some (first, c₁)) :
    Calls total tokens ⟨.binary level, c⟩ ⟨.chain level (.single first), c₁⟩
  | operator (level : Nat) (run : Run) (c : Cursor) :
    Calls total tokens ⟨.chain level run, c⟩ ⟨.chainTurn level run, c⟩
  | nextOperator {level : Nat} {run run' : Run} {c c₁ : Cursor}
    (hturn : chainTurn total tokens level run c = some (.again run' c₁)) :
    Calls total tokens ⟨.chain level run, c⟩ ⟨.chain level run', c₁⟩
  | operand {level : Nat} {run : Run} {c : Cursor} {op : BinaryOp}
    (hop : c.operator? tokens level = some op) :
    Calls total tokens ⟨.chainTurn level run, c⟩ ⟨.binary (level - 1), c.advance tokens⟩
  | noUnary {c : Cursor} (hnone : (c.next? tokens).bind (·.kind.unary?) = none) :
    Calls total tokens ⟨.unary, c⟩ ⟨.accessed, c⟩
  | unary {c : Cursor} {t : Token} {op : UnaryOp} (ht : c.next? tokens = some t)
    (hop : t.kind.unary? = some op) : Calls total tokens ⟨.unary, c⟩ ⟨.unary, c.advance tokens⟩
  | primary (c : Cursor) : Calls total tokens ⟨.accessed, c⟩ ⟨.primary, c⟩
  | members {c c₁ : Cursor} {first : Expr} (hfirst : primary total tokens c = some (first, c₁)) :
    Calls total tokens ⟨.accessed, c⟩ ⟨.members first, c₁⟩
  | member (receiver : Expr) (c : Cursor) :
    Calls total tokens ⟨.members receiver, c⟩ ⟨.memberTurn receiver, c⟩
  | nextMember {receiver e : Expr} {c c₁ : Cursor}
    (hturn : memberTurn total tokens receiver c = some (.again e c₁)) :
    Calls total tokens ⟨.members receiver, c⟩ ⟨.members e, c₁⟩
  | methodArguments {receiver : Expr} {c c₁ c₂ : Cursor} {t name : Token}
    (ht : c.eat tokens .dot = (some t, c₁))
    (hname : c₁.expect total tokens .ident .memberName = (some name, c₂))
    (hopen : c₂.isAt tokens .leftParen = true) :
    Calls total tokens ⟨.memberTurn receiver, c⟩ ⟨.arguments, c₂⟩
  | argumentList {c : Cursor} (hopen : (c.advance tokens).isAt tokens .rightParen = false) :
    Calls total tokens ⟨.arguments, c⟩ ⟨.argumentsFrom [], c.advance tokens⟩
  | argument (args : List Expr) (c : Cursor) :
    Calls total tokens ⟨.argumentsFrom args, c⟩ ⟨.argumentTurn args, c⟩
  | nextArgument {args args' : List Expr} {c c₁ : Cursor}
    (hturn : argumentTurn total tokens args c = some (.again args' c₁)) :
    Calls total tokens ⟨.argumentsFrom args, c⟩ ⟨.argumentsFrom args', c₁⟩
  | argumentExpression (args : List Expr) (c : Cursor) :
    Calls total tokens ⟨.argumentTurn args, c⟩ ⟨.expression, c⟩
  | callArguments {c : Cursor} {t : Token} (ht : c.next? tokens = some t) (hkind : t.kind = .ident)
    (hopen : (c.advance tokens).isAt tokens .leftParen = true) :
    Calls total tokens ⟨.primary, c⟩ ⟨.arguments, c.advance tokens⟩
  | inParentheses {c : Cursor} {t : Token} (ht : c.next? tokens = some t)
    (hkind : t.kind = .leftParen) : Calls total tokens ⟨.primary, c⟩ ⟨.expression, c.advance tokens⟩

/-- The order on measures: fewer tokens left, or as many and a place further down. -/
def Below (m m' : Nat × Nat) : Prop := Prod.Lex (· < ·) (· < ·) m m'

theorem wellFounded_below : WellFounded Below := (Prod.lex Nat.lt_wfRel Nat.lt_wfRel).wf

section Descending

/-- **A call goes on or goes down:** a token has been passed over before it, or it is to a place
further down. -/
theorem Calls.onward {call call' : Call} (h : Calls total tokens call call') :
    call.cursor.Passes tokens call'.cursor ∨
      call.cursor.Forward tokens call'.cursor ∧ call'.procedure.rank < call.procedure.rank := by
  obtain ⟨hexpression, -, hbinary, -, hchain, -, -, -, hmember, -, -, hargument, hprimary⟩ :=
    partial_correctness total tokens
  cases h with
  -- a procedure that reads no token before it calls is of a higher rank than the one it calls
  | expression c => exact .inr ⟨.refl tokens c, by simp [Procedure.rank]⟩
  | condition c => exact .inr ⟨.refl tokens c, by simp [Procedure.rank]⟩
  -- behind a token that has been taken, the rank may be any
  | yes hcond ht =>
    have hforward := (hbinary _ _ _ hcond).forward
    exact .inl (.forward_trans hforward (Cursor.passes_of_eat ht))
  | no hcond ht hyes ht' =>
    have hforward := (hbinary _ _ _ hcond).forward
    have hforward' := (hexpression _ _ hyes).forward
    exact .inl (.forward_trans hforward ((Cursor.passes_of_eat ht).trans_forward
      (hforward'.trans (Cursor.forward_of_expect ht'))))
  | tightest c hlevel =>
    refine .inr ⟨.refl tokens c, ?_⟩
    simp only [Procedure.rank]
    omega
  | tighter c hlevel =>
    refine .inr ⟨.refl tokens c, ?_⟩
    simp only [Cursor.tightest] at hlevel
    simp only [Procedure.rank]
    omega
  -- a first operand may be missing, so the chain is only known to be of a lower rank
  | operators hlevel hfirst =>
    refine .inr ⟨(hbinary _ _ _ hfirst).forward, ?_⟩
    simp only [Procedure.rank]
    omega
  | operator level run c => exact .inr ⟨.refl tokens c, by simp [Procedure.rank]⟩
  -- a loop goes on only where its turn has taken a token
  | nextOperator hturn => exact .inl (hchain _ _ _ _ hturn)
  | operand hop => exact .inl (Cursor.passes_of_operator? hop)
  | noUnary hnone => exact .inr ⟨.refl tokens _, by simp [Procedure.rank]⟩
  | unary ht hop => exact .inl (Cursor.passes_advance ht)
  | primary c => exact .inr ⟨.refl tokens c, by simp [Procedure.rank]⟩
  | members hfirst => exact .inr ⟨(hprimary _ _ hfirst).forward, by simp [Procedure.rank]⟩
  | member receiver c => exact .inr ⟨.refl tokens c, by simp [Procedure.rank]⟩
  | nextMember hturn => exact .inl (hmember _ _ _ hturn)
  | methodArguments ht hname hopen =>
    exact .inl ((Cursor.passes_of_eat ht).trans_forward (Cursor.forward_of_expect hname))
  | argumentList hopen => exact .inr ⟨Cursor.forward_advance, by simp [Procedure.rank]⟩
  | argument args c => exact .inr ⟨.refl tokens c, by simp [Procedure.rank]⟩
  | nextArgument hturn => exact .inl (hargument _ _ _ hturn)
  | argumentExpression args c => exact .inr ⟨.refl tokens c, by simp [Procedure.rank]⟩
  | callArguments ht hkind hopen => exact .inl (Cursor.passes_advance ht)
  | inParentheses ht hkind => exact .inl (Cursor.passes_advance ht)

/-- **A call is made from where the caller is, or further on.** -/
theorem Calls.forward {call call' : Call} (h : Calls total tokens call call') :
    call.cursor.Forward tokens call'.cursor := by
  rcases h.onward with hpasses | ⟨hforward, -⟩
  · exact hpasses.toForward
  · exact hforward

/-- **Every call goes down** in the measure. -/
theorem Calls.below {call call' : Call} (h : Calls total tokens call call') :
    Below (call'.measure tokens) (call.measure tokens) := by
  rcases h.onward with hpasses | ⟨hforward, hrank⟩
  · exact Prod.Lex.left _ _ hpasses.remaining_lt
  · exact Prod.Lex.right' _ hforward.remaining_le hrank

variable (total tokens) in

/-- So no call can go on for ever. -/
theorem wellFounded_calls : WellFounded fun call' call => Calls total tokens call call' :=
  Subrelation.wf Calls.below (InvImage.wf (Call.measure tokens) wellFounded_below)

end Descending

end Descent

end OperandOrder
