import OperandOrder.Proofs.Parser.Grouping

/-!
# What is read without errors is derived

Each reading function takes a derivation of what was read before it, if it continues something, and
extends it. `Reply.Sound` is the form of all these statements: a reply without errors takes no more
tokens than there are, and the tokens that it takes are as asked. The theorems follow the functions
one by one, and end for the same reason as these.
-/

namespace OperandOrder

/-- **A sound reply:** unless there are errors, it takes tokens that are there and that `Q` relates
to its value. -/
def Reply.Sound {α : Type} (ts : List Token) (Q : List Token → α → Prop) (r : Reply α) : Prop :=
  r.errors = [] → r.used ≤ ts.length ∧ Q (ts.take r.used) r.value

namespace Reply.Sound

variable {α β : Type} {ts : List Token}

/-- A sound reply is sound for whatever follows. -/
theorem mono {Q Q' : List Token → α → Prop} {r : Reply α} (h : r.Sound ts Q)
    (hQ : ∀ us v, Q us v → Q' us v) : r.Sound ts Q' := by
  intro herrors
  obtain ⟨hused, hv⟩ := h herrors
  exact ⟨hused, hQ _ _ hv⟩

/-- Nothing more is taken. -/
theorem stop {Q : List Token → α → Prop} {v : α} (h : Q [] v) : (⟨v, 0, []⟩ : Reply α).Sound ts Q :=
  fun _ => ⟨Nat.zero_le _, h⟩

/-- A reply with an error has nothing to be sound about. -/
theorem failed {Q : List Token → α → Prop} {v : α} {n : Nat} {error : ParseError} :
    (⟨v, n, [error]⟩ : Reply α).Sound ts Q :=
  fun herrors => absurd herrors (List.cons_ne_nil _ _)

/-- One token, and what is read behind it. -/
theorem cons {P : List Token → α → Prop} {Q : List Token → β → Prop} {r : Reply α}
    {t : Token} {v : β} {n : Nat} (h : r.Sound ts P) (hn : n = 1 + r.used)
    (hQ : ∀ us, P us r.value → Q (t :: us) v) : (⟨v, n, r.errors⟩ : Reply β).Sound (t :: ts) Q := by
  intro herrors
  obtain ⟨hused, hv⟩ := h herrors
  subst hn
  refine ⟨by simp only [List.length_cons]; omega, ?_⟩
  change Q ((t :: ts).take (1 + r.used)) v
  rw [Nat.add_comm, List.take_succ_cons]
  exact hQ _ hv

/-- What is read first, and what is read behind it. -/
theorem after {Q : List Token → β → Prop} {r : Reply β} {n : Nat} {earlier : List ParseError}
    (h : earlier = [] → n ≤ ts.length ∧ r.Sound (ts.drop n) fun us v => Q (ts.take n ++ us) v) :
    (r.after n earlier).Sound ts Q := by
  intro herrors
  obtain ⟨hearlier, hlater⟩ := List.append_eq_nil_iff.mp herrors
  obtain ⟨hn, hsound⟩ := h hearlier
  obtain ⟨hused, hv⟩ := hsound hlater
  rw [List.length_drop] at hused
  refine ⟨by change n + r.used ≤ ts.length; omega, ?_⟩
  change Q (ts.take (n + r.used)) r.value
  rw [List.take_add]
  exact hv

end Reply.Sound

namespace Parser

/-- A parenthesis without errors is closed. -/
theorem closeParen_sound {total : Nat} {o : Token} {us : List Token} {e : Expr}
    (ho : o.kind = .leftParen) (he : Derives .expr us e) (ts : List Token) :
    (closeParen total o.span e ts).Sound ts fun vs e' => Derives .primary (o :: us ++ vs) e' := by
  cases ts with
  | nil => exact .failed
  | cons c rest =>
    rw [closeParen]
    split
    next hc => exact fun _ => ⟨by simp, .paren ho he hc⟩
    next => exact .failed

mutual

/-- **What is read without errors is derived.** The procedures follow, each with the rules that its
branches use; a branch that records an error has nothing to show. -/
theorem expression_sound (total : Nat) (ts : List Token) :
    (expression total ts).Sound ts (Derives .expr) := by
  rw [expression]
  refine .after fun herrors => ?_
  obtain ⟨hused, hspread⟩ := operands_sound total ts herrors
  exact ⟨hused, conditional_sound total hspread.derives _⟩
termination_by 8 * ts.length + 4

/-- A conditional without errors has both branches. -/
theorem conditional_sound (total : Nat) {cs : List Token} {c : Expr}
    (hc : Derives (.level 12) cs c) :
    (ts : List Token) → (conditional total c ts).Sound ts fun us e => Derives .expr (cs ++ us) e
  | [] => by
    rw [conditional]
    refine .stop ?_
    rw [List.append_nil]
    exact .plain hc
  | q :: rest => by
    rw [conditional]
    split
    next hq =>
      refine .after fun herrors => ?_
      obtain ⟨hused, hy⟩ := expression_sound total rest herrors
      refine ⟨by simp only [List.length_cons]; omega, ?_⟩
      -- `q` and the tokens of `y` are taken, and what is left goes to `alternative`
      rw [Nat.add_comm, List.drop_succ_cons, List.take_succ_cons]
      exact alternative_sound total hc hq hy _
    next =>
      refine .stop ?_
      rw [List.append_nil]
      exact .plain hc
termination_by ts => 8 * ts.length

/-- The second branch has been read behind a colon. -/
theorem alternative_sound (total : Nat) {cs ys : List Token} {q : Token} {c y : Expr}
    (hc : Derives (.level 12) cs c) (hq : q.kind = .question) (hy : Derives .expr ys y) :
    (ts : List Token) → (alternative total c y ts).Sound ts fun us e =>
      Derives .expr (cs ++ (q :: ys ++ us)) e
  | [] => by
    rw [alternative]
    exact .failed
  | l :: rest => by
    rw [alternative]
    split
    next hl => exact (expression_sound total rest).cons rfl fun us hn => .conditional hc hq hy hl hn
    next => exact .failed
termination_by ts => 8 * ts.length

/-- Operands and operators are spread out in the order of the text. -/
theorem operands_sound (total : Nat) (ts : List Token) :
    (operands total ts).Sound ts (Spread (Derives (.level 2))) := by
  rw [operands]
  refine .after fun herrors => ?_
  obtain ⟨hused, he⟩ := unary_sound total ts herrors
  exact ⟨hused, operandsAfter_sound total he _⟩
termination_by 8 * ts.length + 3

/-- Each operator is followed by its operand. -/
theorem operandsAfter_sound (total : Nat) {us : List Token} {e : Expr}
    (he : Derives (.level 2) us e) :
    (ts : List Token) → (operandsAfter total e ts).Sound ts fun vs f =>
      Spread (Derives (.level 2)) (us ++ vs) f
  | [] => by
    rw [operandsAfter]
    refine .stop ?_
    rw [List.append_nil]
    exact .one he
  | t :: rest => by
    rw [operandsAfter]
    split
    next =>
      refine .stop ?_
      rw [List.append_nil]
      exact .one he
    next op hop =>
      -- `binary?` answers for operators only
      have ht : t.kind = .operator op := by
        cases hkind : t.kind <;> rw [hkind] at hop <;> cases hop
        rfl
      exact (operands_sound total rest).cons rfl fun vs hf => .more he ht hf
termination_by ts => 8 * ts.length

/-- A sign is followed by its operand. -/
theorem unary_sound (total : Nat) :
    (ts : List Token) → (unary total ts).Sound ts (Derives (.level 2))
  | [] => by
    rw [unary]
    exact (memberChain_sound total []).mono fun _ _ => .operand
  | t :: rest => by
    rw [unary]
    split
    next => exact (memberChain_sound total (t :: rest)).mono fun _ _ => .operand
    next op hop => exact (unary_sound total rest).cons rfl fun us he => .unary hop he
termination_by ts => 8 * ts.length + 2

theorem memberChain_sound (total : Nat) (ts : List Token) :
    (memberChain total ts).Sound ts (Derives .members) := by
  rw [memberChain]
  refine .after fun herrors => ?_
  obtain ⟨hused, he⟩ := primary_sound total ts herrors
  exact ⟨hused, members_sound total (.first he) _⟩
termination_by 8 * ts.length + 1

/-- **Members that are read without errors have their names.** What has been derived so far is the
receiver of the next one: a field, or a method whose arguments are derived. -/
theorem members_sound (total : Nat) {us : List Token} {e : Expr} (he : Derives .members us e) :
    (ts : List Token) → (members total e ts).Sound ts fun vs e' => Derives .members (us ++ vs) e'
  | [] => by
    rw [members]
    refine .stop ?_
    rwa [List.append_nil]
  | [dot] => by
    rw [members]
    split
    next => exact .failed
    next =>
      refine .stop ?_
      rwa [List.append_nil]
  | [dot, name] => by
    rw [members]
    split
    next hdot =>
      split
      next hname => exact fun _ => ⟨le_refl _, .field he hdot hname⟩
      next => exact .failed
    next =>
      refine .stop ?_
      rwa [List.append_nil]
  | dot :: name :: t :: inside => by
    rw [members]
    split
    next hdot =>
      split
      next hname =>
        split
        next ht =>
          refine .after fun herrors => ?_
          obtain ⟨hused, has⟩ := arguments_sound total ht inside herrors
          refine ⟨by simp only [List.length_cons]; omega, ?_⟩
          -- a call: the point, the name, the parenthesis and the arguments are taken
          rw [Nat.add_comm, List.drop_succ_cons, List.drop_succ_cons, List.drop_succ_cons,
            List.take_succ_cons, List.take_succ_cons, List.take_succ_cons]
          refine (members_sound total (.method he hdot hname has) _).mono fun vs e' h => ?_
          rwa [List.append_assoc] at h
        next =>
          -- a field: two tokens are taken, and the third is met again as the next member's
          refine .after fun _ => ⟨by simp, ?_⟩
          refine (members_sound total (.field he hdot hname) _).mono fun vs e' h => ?_
          rwa [List.append_assoc] at h
      next => exact .failed
    next =>
      refine .stop ?_
      rwa [List.append_nil]
termination_by ts => 8 * ts.length

/-- Arguments without errors are closed. -/
theorem arguments_sound (total : Nat) {o : Token} (ho : o.kind = .leftParen) :
    (ts : List Token) → (arguments total ts).Sound ts fun us as => Derives .args (o :: us) as
  | [] => by
    rw [arguments]
    exact (someArguments_sound total []).mono fun _ _ => .someArgs ho
  | t :: rest => by
    rw [arguments]
    split
    next hc => exact fun _ => ⟨by simp, .noArgs ho hc⟩
    next => exact (someArguments_sound total (t :: rest)).mono fun _ _ => .someArgs ho
termination_by ts => 8 * ts.length + 6

theorem someArguments_sound (total : Nat) (ts : List Token) :
    (someArguments total ts).Sound ts (Derives .list) := by
  rw [someArguments]
  refine .after fun herrors => ?_
  obtain ⟨hused, he⟩ := expression_sound total ts herrors
  exact ⟨hused, argumentsAfter_sound total he _⟩
termination_by 8 * ts.length + 5

/-- An argument is followed by a comma and another one, or by the closing parenthesis. -/
theorem argumentsAfter_sound (total : Nat) {us : List Token} {e : Expr} (he : Derives .expr us e) :
    (ts : List Token) → (argumentsAfter total e ts).Sound ts fun vs as =>
      Derives .list (us ++ vs) as
  | [] => by
    rw [argumentsAfter]
    exact .failed
  | t :: rest => by
    rw [argumentsAfter]
    split
    next hcomma =>
      exact (someArguments_sound total rest).cons rfl fun vs has => .nextArg he hcomma has
    next =>
      split
      next hc => exact fun _ => ⟨by simp, .lastArg he hc⟩
      next => exact .failed
termination_by ts => 8 * ts.length

/-- **An operand that is read without errors has its parts:** one case for each kind of token that
begins one. Any other token is an error. -/
theorem primary_sound (total : Nat) :
    (ts : List Token) → (primary total ts).Sound ts (Derives .primary)
  | [] => by
    rw [primary]
    exact .failed
  | t :: rest => by
    unfold primary
    split
    next kind ht => exact fun _ => ⟨by simp, .literal ht⟩
    next =>
      split
      next ht =>
        split
        next => exact fun _ => ⟨by simp, .ident ht⟩
        next p inside =>
          split
          next hp =>
            -- the name and the parenthesis count as taken, whatever the arguments take
            intro herrors
            obtain ⟨hused, has⟩ := arguments_sound total hp inside herrors
            refine ⟨by simp only [List.length_cons]; omega, ?_⟩
            change Derives .primary ((t :: p :: inside).take (2 + (arguments total inside).used)) _
            rw [Nat.add_comm, List.take_succ_cons, List.take_succ_cons]
            exact .call ht has
          next => exact fun _ => ⟨by simp, .ident ht⟩
      next =>
        split
        next ho =>
          refine .after fun herrors => ?_
          obtain ⟨hused, he⟩ := expression_sound total rest herrors
          refine ⟨by simp only [List.length_cons]; omega, ?_⟩
          rw [Nat.add_comm, List.drop_succ_cons, List.take_succ_cons]
          exact closeParen_sound ho he _
        next => exact .failed
termination_by ts => 8 * ts.length

end

end Parser

end OperandOrder
