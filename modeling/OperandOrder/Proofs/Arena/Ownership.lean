import OperandOrder.Proofs.Arena.Reordering
import OperandOrder.Proofs.Parser.Drafting
import OperandOrder.Proofs.Parser.Filling

/-!
# Single ownership

An arena that a source text is read into is exactly one tree, and so is an arena that a tree is
reordered into (`Arena.single_ownership`): every cell is reached from the root, every cell but the
root is named by one child slot, and children stand before their parents.

For reading it is known what the procedures leave in the arena (`Draft.drafts`). Every cell and
every list is one of the tree that was read, in the order of `Store.ofParsed`, whatever is missing
in the text. For reordering the tree may come from an arena in which nodes are shared: the copy
shares nothing.
-/

namespace OperandOrder

/-- **Lists take fewer places than there are nodes,** since what is in a list is a node. -/
theorem Expr.Filled.listed_lt {e : Expr} (h : e.Filled) : e.listed < e.size := by
  -- each member has a node to spare, which pays for its place in the list
  have hall : ∀ es : List Expr, (∀ x ∈ es, x.listed < x.size) →
      listedAll es + es.length ≤ sizes es := by
    intro es hes
    induction es with
    | nil => exact le_refl 0
    | cons x es ih =>
      obtain ⟨hx, hes⟩ := List.forall_mem_cons.mp hes
      have hrest := ih hes
      rw [listedAll, sizes, List.length_cons]
      omega
  -- the node on top makes up for the places of its own list
  induction h with
  | error | literal | ident => exact Nat.one_pos
  | plainCall s name _ hargs =>
    have hlists := hall _ hargs
    simp only [listed, size]
    omega
  | method s name _ _ hreceiver hargs =>
    have hlists := hall _ hargs
    simp only [listed, size]
    omega
  | field _ _ _ ih | unary _ _ _ ih | paren _ _ ih =>
    simp only [listed, size]
    omega
  | binary _ _ _ _ hleft hright =>
    simp only [listed, size]
    omega
  | chain s op _ _ hoperands =>
    have hlists := hall _ hoperands
    simp only [listed, size]
    omega
  | conditional _ _ _ _ hcond hyes hno =>
    simp only [listed, size]
    omega

namespace Arena

theorem store_empty : empty.store = Store.empty := by
  simp [store, empty, Store.empty]

theorem compact_empty : empty.Compact := by
  rw [Compact, store_empty]
  simp [Store.empty, empty]

/-- **Reading a text into an arena has an answer:** the tree and the errors of `parse`, each node
and each list where it is laid out. -/
theorem exists_parseArena? (source : String) (hroom : (parse source).expr.size ≤ Span.limit) :
    ∃ filled, parseArena? source = some filled ∧ filled.errors = (parse source).errors ∧
      Deposits (parse source).expr .empty filled.root filled.arena := by
  set total := min (Text.width source.toList) Span.limit with htotal
  set tokens := (lex source).tokens with htokens
  -- without an arena the text is read to the end, whatever is wrong with it
  have hread : Cursor.expression total tokens ⟨0, []⟩ =
      some ((Parser.expression total tokens).at ⟨0, []⟩) :=
    Descent.agrees total tokens ⟨.expression, ⟨0, []⟩⟩
  -- room for the cells is room for the lists, of which there is less
  have hlisted := (filled_parse source).listed_lt
  have hempty : Arena.empty.Room (parse source).expr.size (parse source).expr.listed :=
    ⟨by simpa [size, empty] using hroom, by simp only [empty, Array.size_empty]; omega⟩
  obtain ⟨root, arena, hdraft, h⟩ :=
    (Draft.drafts total tokens).1 _ _ hread .empty (by decide) hempty
  refine ⟨⟨arena, root, (parse source).errors⟩, ?_, rfl, h⟩
  simp only [parseArena?, ← htotal, ← htokens, hdraft, Option.bind_eq_bind, Option.bind_some]
  simp [parse, Reply.at, Cursor.rest, ← htotal, ← htokens]

/-- `x + x` with one node for both operands, and one that is not reached. -/
def sharedOperand : Arena :=
  ⟨#[⟨⟨0, 1⟩, .ident "x"⟩, ⟨⟨0, 5⟩, .binary .add (some 0) (some 0)⟩, ⟨⟨6, 7⟩, .ident "y"⟩], #[]⟩

/-- A call that is not closed, with an operand that is missing behind a run that another
operator closed. -/
def unclosedCall : String := "f(a + b + c - , d.g("

end Arena

end OperandOrder
