import OperandOrder.Printer
import OperandOrder.Profile
import OperandOrder.Store

/-!
# Arenas

An `Arena` keeps nodes as a machine does. Every cell is of one size, so the operands of a chain and
the arguments of a call are kept in a second sequence, and the cell has the stretch of that sequence
where they stand. Cells and lists are numbered in 32 bits; the largest number stands for a child
that is not there.

Each lookup is checked: there is no answer where a cell or a stretch is not in the arena, and none
where the node of an absent reference is asked for. So an operation that has an answer did not look
beyond the arena. Operations follow references and are told how deep they may go; the number of
cells is deep enough where nodes do not go round in circles.

`Arena.store` is the store with the same nodes. What is proved of stores holds of arenas, since the
operations on the two agree wherever an arena is well-formed.
-/

namespace OperandOrder

/-- **A stretch** of the list storage. -/
structure Stretch where
  start : Nat
  length : Nat
  deriving DecidableEq, Repr

/-- What a cell holds. It is a `Shape` with a stretch for a list. -/
inductive Kind where
  | error
  | literal (kind : LiteralKind) (text : String)
  | ident (name : String)
  | call (receiver : Ref) (name : String) (args : Stretch)
  | field (receiver : Ref) (name : String)
  | unary (op : UnaryOp) (operand : Ref)
  | paren (inner : Ref)
  | binary (op : BinaryOp) (left right : Ref)
  | chain (op : BinaryOp) (operands : Stretch)
  | conditional (cond yes no : Ref)
  deriving DecidableEq, Repr

namespace Kind

def form : Kind → Form
  | .error => .error
  | .literal kind _ => .literal kind
  | .call _ _ args => .call args.length
  | .unary op _ => .unary op
  | .binary op _ _ => .infixed op
  | .chain op _ => .infixed op
  | .conditional .. => .conditional
  | .ident _ | .field .. | .paren _ => .plain

/-- Where the list of a cell stands, if it has one. -/
def stretch? : Kind → Option Stretch
  | .call _ _ args => some args
  | .chain _ operands => some operands
  | _ => none

/-- What a cell holds, with the list that is in its stretch. -/
def withList : Kind → List Ref → Shape
  | .error, _ => .error
  | .literal kind text, _ => .literal kind text
  | .ident name, _ => .ident name
  | .call receiver name _, args => .call receiver name args
  | .field receiver name, _ => .field receiver name
  | .unary op operand, _ => .unary op operand
  | .paren inner, _ => .paren inner
  | .binary op left right, _ => .binary op left right
  | .chain op _, operands => .chain op operands
  | .conditional cond yes no, _ => .conditional cond yes no

end Kind

/-- A cell: what it holds, and the span it was read from. -/
structure Cell where
  span : Span
  kind : Kind
  deriving DecidableEq, Repr

/-- **An arena:** cells, and the lists of their children. -/
structure Arena where
  cells : Array Cell
  lists : Array Ref
  deriving DecidableEq, Repr

namespace Shape

/-- The same node with other children, given in their order. -/
def withChildren : Shape → List Ref → Shape
  | .call _ name _, receiver :: args => .call receiver name args
  | .field _ name, [receiver] => .field receiver name
  | .unary op _, [operand] => .unary op operand
  | .paren _, [inner] => .paren inner
  | .binary op _ _, [left, right] => .binary op left right
  | .chain op _, operands => .chain op operands
  | .conditional _ _ _, [cond, yes, no] => .conditional cond yes no
  | shape, _ => shape

/-- The children that are kept in a list. -/
def list : Shape → List Ref
  | .call _ _ args => args
  | .chain _ operands => operands
  | _ => []

/-- What a node weighs without its children. The name of a call or of a field access counts. -/
def ownWeight : Shape → Nat
  | .call .. | .field .. => 2
  | _ => 1

end Shape

namespace Arena

def empty : Arena := ⟨#[], #[]⟩

/-- Number of cells. -/
def size (a : Arena) : Nat := a.cells.size

/-! ### Lookups -/

/-- The cell at a reference. There is none at one that is absent. -/
def cell? (a : Arena) (r : Ref) : Option Cell := r.bind fun i => a.cells[i]?

/-- The references in a stretch. There are none if it reaches beyond the lists. -/
def list? (a : Arena) (s : Stretch) : Option (List Ref) :=
  if s.start + s.length ≤
    a.lists.size then some (a.lists.extract s.start (s.start + s.length)).toList else none

/-- What a cell holds, with its list. -/
def shape? (a : Arena) (k : Kind) : Option Shape :=
  match k.stretch? with
  | none => some (k.withList [])
  | some s => (a.list? s).map k.withList

/-- **The node at a reference,** with its list. -/
def node? (a : Arena) (r : Ref) : Option Node := do
  let cell ← a.cell? r
  let shape ← a.shape? cell.kind
  some ⟨cell.span, shape⟩

/-- The form of the node at a reference. -/
def form? (a : Arena) (r : Ref) : Option Form := (a.cell? r).map (·.kind.form)

/-- Whether nothing stands at a reference that could be compared or moved. -/
def isMissing? (a : Arena) : Ref → Option Bool
  | none => some true
  | some i => (a.form? (some i)).map Form.isMissing

/-- The node in a cell. A list that is not in the arena is read as an error. -/
def nodeOf (a : Arena) (cell : Cell) : Node := ⟨cell.span, (a.shape? cell.kind).getD .error⟩

/-- **The nodes of an arena** as a store. -/
def store (a : Arena) : Store := ⟨a.cells.map a.nodeOf⟩

/-- **The tree at a reference.** -/
def tree? (a : Arena) (r : Ref) : Option Expr := a.store.tree? r

/-! ### Allocation -/

/-- The reference to the cell with a given number. A number beyond the limit is cut to the largest
that refers to a cell. -/
def refOf (n : Nat) : Ref :=
  if n < Span.limit then some n else if n = Span.limit then none else some (Span.limit - 1)

/-- Adds a list, and says where it stands. Both ends are cut to the limit. -/
def pushList (a : Arena) (refs : List Ref) : Arena × Stretch :=
  let lists := a.lists ++ refs
  let start := min a.lists.size Span.limit
  (⟨a.cells, lists⟩, ⟨start, min lists.size Span.limit - start⟩)

/-- Adds the list of a node, and says what its cell is to hold. -/
def pushShape (a : Arena) : Shape → Arena × Kind
  | .error => (a, .error)
  | .literal kind text => (a, .literal kind text)
  | .ident name => (a, .ident name)
  | .call receiver name args =>
    let list := a.pushList args
    (list.1, .call receiver name list.2)
  | .field receiver name => (a, .field receiver name)
  | .unary op operand => (a, .unary op operand)
  | .paren inner => (a, .paren inner)
  | .binary op left right => (a, .binary op left right)
  | .chain op operands =>
    let list := a.pushList operands
    (list.1, .chain op list.2)
  | .conditional cond yes no => (a, .conditional cond yes no)

/-- **Adds a node:** first its list, then its cell. -/
def push (a : Arena) (node : Node) : Arena × Ref :=
  let held := a.pushShape node.shape
  (⟨held.1.cells.push ⟨node.span, held.2⟩, held.1.lists⟩, refOf held.1.cells.size)

/-! ### Weighing -/

/-- The weight of a tree, at most `n` nodes deep. -/
def weightWithin (a : Arena) : Nat → Ref → Option Nat
  | _, none => some 0
  | 0, some _ => none
  | n + 1, some i => do
    let node ← a.node? (some i)
    let below ← node.shape.children.mapM (a.weightWithin n)
    some (node.shape.ownWeight + below.foldr (· + ·) 0)

/-- **The weight of the tree at a reference.** -/
def weight? (a : Arena) (r : Ref) : Option Nat := a.weightWithin a.size r

/-- **Whether one tree is larger than another.** Neither is looked into if one is missing. -/
def isLarger? (a : Arena) (x y : Ref) : Option Bool := do
  if ← a.isMissing? x then some false
  else if ← a.isMissing? y then some false
  else
    let m ← a.weight? x
    let n ← a.weight? y
    if Profile.threshold + n < m then some true
    else if Profile.threshold + m < n then some false
    else
      match (← a.form? x).args?, (← a.form? y).args? with
      | some k, some l => some (decide (l < k))
      | _, _ => some (decide ((← a.cell? y).span.length < (← a.cell? x).span.length))

/-! ### Comparing -/

/-- Whether two stretches hold the same trees. -/
def sameStretch? (a b : Arena) (same : Ref → Ref → Option Bool) (s t : Stretch) : Option Bool := do
  Store.sameListBy same (← a.list? s) (← b.list? t)

/-- Compares two trees, at most `n` nodes deep. A list is looked at only if all before it was
the same. -/
def sameWithin (a b : Arena) : Nat → Ref → Ref → Option Bool
  | _, none, none => some true
  | _, none, some _ => some false
  | _, some _, none => some false
  | 0, some _, some _ => none
  | n + 1, some i, some j => do
    let x ← a.cell? (some i)
    let y ← b.cell? (some j)
    if x.span ≠ y.span then some false
    else
      match x.kind, y.kind with
      | .error, .error => some true
      | .literal k s, .literal l t => some (k == l && s == t)
      | .ident s, .ident t => some (s == t)
      | .call r s as, .call r' s' bs => do
        if s == s' then
          if ← sameWithin a b n r r' then sameStretch? a b (sameWithin a b n) as bs else some false
        else some false
      | .field r s, .field r' s' => if s == s' then sameWithin a b n r r' else some false
      | .unary p r, .unary q r' => if p == q then sameWithin a b n r r' else some false
      | .paren r, .paren r' => sameWithin a b n r r'
      | .binary p l r, .binary q l' r' => do
        if p == q then
          if ← sameWithin a b n l l' then sameWithin a b n r r' else some false
        else some false
      | .chain p as, .chain q bs =>
        if p == q then sameStretch? a b (sameWithin a b n) as bs else some false
      | .conditional c y n', .conditional d z m' => do
        if ← sameWithin a b n c d then
          if ← sameWithin a b n y z then sameWithin a b n n' m' else some false
        else some false
      | _, _ => some false

/-- **Whether two references denote the same tree,** spans included, wherever its cells and
lists stand. -/
def sameTree? (a : Arena) (x : Ref) (b : Arena) (y : Ref) : Option Bool :=
  sameWithin a b (a.size * b.size) x y

/-! ### Printing -/

/-- Whether the node at a reference has to stand in parentheses. -/
def needsParens? (a : Arena) (position : Position) : Ref → Option Bool
  | none => some false
  | some i => (a.form? (some i)).map position.wraps

/-- A space where two equal signs would meet. -/
def signGap? (a : Arena) (op : UnaryOp) : Ref → Option (List Fragment)
  | none => some []
  | some i => if op.doubles then (a.form? (some i)).map (Expr.signGap op) else some []

/-- The output of a child, in parentheses if its position asks for them. -/
def child? (a : Arena) (output : Ref → Option (List Fragment)) (position : Position) (r : Ref) :
    Option (List Fragment) := do
  let wraps ← a.needsParens? position r
  let inner ← output r
  some (if wraps then .text "(" :: inner ++ [.text ")"] else inner)

/-- The operands of a node with the operator between them. -/
def operands? (a : Arena) (output : Ref → Option (List Fragment)) (op : BinaryOp)
    (leftmost : Bool) : List Ref → Option (List Fragment)
  | [] => some []
  | r :: rs => do
    let operand ← a.child? output (.operand op leftmost) r
    let others ← a.operands? output op false rs
    some ((if leftmost then [] else [.space, .text op.symbol, .space]) ++ operand ++ others)

/-- The arguments of a call with commas between them. -/
def arguments? (output : Ref → Option (List Fragment)) (first : Bool) :
    List Ref → Option (List Fragment)
  | [] => some []
  | r :: rs => do
    let arg ← output r
    let others ← arguments? output false rs
    some ((if first then [] else [.text ",", .space]) ++ arg ++ others)

/-- The output of a tree, at most `n` nodes deep. -/
def fragmentsWithin (a : Arena) : Nat → Ref → Option (List Fragment)
  | _, none => some []
  | 0, some _ => none
  | n + 1, some i => do
    let node ← a.node? (some i)
    match node.shape with
    | .error => some [.text "/* error */"]
    | .literal _ text => some [.text text]
    | .ident name => some [.text name]
    | .call receiver name args => do
      let front ← match receiver with
        -- a plain call
        | none => some []
        | some _ => (a.child? (a.fragmentsWithin n) .receiver receiver).map (· ++ [.text "."])
      let inside ← arguments? (a.fragmentsWithin n) true args
      some (front ++ .text name :: .text "(" :: inside ++ [.text ")"])
    | .field receiver name => do
      let front ← a.child? (a.fragmentsWithin n) .receiver receiver
      some (front ++ [.text ".", .text name])
    | .unary op operand => do
      let gap ← a.signGap? op operand
      let behind ← a.child? (a.fragmentsWithin n) .unaryOperand operand
      some (.text op.symbol :: gap ++ behind)
    | .paren inner => do
      let inside ← a.fragmentsWithin n inner
      some (.text "(" :: inside ++ [.text ")"])
    | .binary op left right => a.operands? (a.fragmentsWithin n) op true [left, right]
    | .chain op operands => a.operands? (a.fragmentsWithin n) op true operands
    | .conditional cond yes no => do
      let c ← a.child? (a.fragmentsWithin n) .condition cond
      let y ← a.fragmentsWithin n yes
      let z ← a.fragmentsWithin n no
      some (c ++ [.space, .text "?", .space] ++ y ++ [.space, .text ":", .space] ++ z)

/-- **The text of the tree at a reference.** -/
def print? (a : Arena) (r : Ref) : Option String := (a.fragmentsWithin a.size r).map Fragment.layout

end Arena

end OperandOrder
