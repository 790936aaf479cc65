import OperandOrder.Expr

/-!
# Literal policies

Two independent settings decide whether a literal may be moved: `RightLiterals` for a literal on the
right of an operator (`x == null`, `i < 10`), and `BothLiterals` for a literal anywhere. A policy is
a plain value that is handed to every operation; there is no setting held elsewhere.

Each setting has a name. A name is read with case, hyphens, underscores and blanks ignored, and a
name that is not known means the setting that moves the fewest literals.

An *exempt* operand keeps its place relative to the sibling it is compared with. Exemptions look at
the form of an operand only: `Policy.exempts` anywhere, `Policy.exemptsRight` on the right, and
`Policy.exemptsPair` for two neighbours.
-/

namespace OperandOrder

/-- Whether a literal on the right may move to the left. -/
inductive RightLiterals where
  /-- Any of them may. -/
  | all
  /-- Any of them may, except `true`, `false` and `null`. -/
  | allButBooleanAndNull
  /-- None of them may. -/
  | none
  deriving DecidableEq, Repr

/-- Whether literals may move at all. -/
inductive BothLiterals where
  | all
  | none
  deriving DecidableEq, Repr

/-- What is left of the name of a setting once case and separators are ignored. -/
def settingKey (name : String) : String :=
  String.ofList ((name.toList.filter fun c => !(c == '-' || c == '_' || c == ' ')).map Char.toLower)

namespace RightLiterals

def every : List RightLiterals := [.all, .allButBooleanAndNull, .none]

def name : RightLiterals → String
  | .all => "all"
  | .allButBooleanAndNull => "all-but-boolean-and-null"
  | .none => "none"

/-- The setting of a given name; an unknown name moves nothing. -/
def ofName (name : String) : RightLiterals :=
  match settingKey name with
  | "all" => .all
  | "allbutbooleanandnull" => .allButBooleanAndNull
  | _ => .none

/-- Whether a right-hand literal of this kind has to stay. -/
def keeps : RightLiterals → LiteralKind → Bool
  | .all, _ => false
  | .allButBooleanAndNull, kind => kind == .bool || kind == .null
  | .none, _ => true

end RightLiterals

namespace BothLiterals

def every : List BothLiterals := [.all, .none]

def name : BothLiterals → String
  | .all => "all"
  | .none => "none"

/-- The setting of a given name; an unknown name moves nothing. -/
def ofName (name : String) : BothLiterals :=
  match settingKey name with
  | "all" => .all
  | _ => .none

end BothLiterals

/-- **A policy:** the two settings in effect. -/
structure Policy where
  rightLiterals : RightLiterals := .allButBooleanAndNull
  bothLiterals : BothLiterals := .all
  deriving DecidableEq, Repr, Inhabited

namespace Policy

/-- The policy in effect when nothing is said. -/
def standard : Policy := {}

/-- The policy that moves the fewest operands. -/
def conservative : Policy := ⟨.none, .none⟩

/-- Every policy. -/
def every : List Policy :=
  RightLiterals.every.flatMap fun right => BothLiterals.every.map fun both => ⟨right, both⟩

/-- **Exempt in any position:** every literal when literals may not move, and a string under `+`,
since joining strings is not commutative. -/
def exempts (policy : Policy) (op : BinaryOp) (f : Form) : Bool :=
  (policy.bothLiterals == .none && f.isLiteral) || (op == .add && f == .literal .str)

/-- **Exempt on the right:** calls, what is exempt anywhere, and the literals that have to stay. -/
def exemptsRight (policy : Policy) (op : BinaryOp) (f : Form) : Bool :=
  f.isCall || policy.exempts op f || f.literalKind?.any policy.rightLiterals.keeps

/-- **Exempt as a pair:** whether `left op right` has to keep its order. -/
def exemptsPair (policy : Policy) (op : BinaryOp) (left right : Form) : Bool :=
  (left.isCall && right.isCall) || policy.exempts op left || policy.exempts op right ||
    policy.exemptsRight op right

@[simp] theorem exempts_converse (policy : Policy) (op : BinaryOp) (f : Form) :
    policy.exempts op.converse f = policy.exempts op f := by
  cases op <;> rfl

@[simp] theorem exemptsRight_converse (policy : Policy) (op : BinaryOp) (f : Form) :
    policy.exemptsRight op.converse f = policy.exemptsRight op f := by
  simp [exemptsRight]

@[simp] theorem exemptsPair_converse (policy : Policy) (op : BinaryOp) (left right : Form) :
    policy.exemptsPair op.converse left right = policy.exemptsPair op left right := by
  simp [exemptsPair]

end Policy

end OperandOrder
