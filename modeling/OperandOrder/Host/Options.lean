import OperandOrder.Host.Failure
import OperandOrder.Policy
import OperandOrder.Text.Blank
import OperandOrder.Text.Decimal

/-!
# Options of a command

The arguments after the name of a command. The policy is layered: a flag wins over the environment,
and the environment over the standard policy. Of a flag given twice the last one counts. The first
argument that is not understood decides the failure.
-/

namespace OperandOrder

/-! ### Ranges -/

/-- The texts before and after the first `..`. -/
def splitAtDots? : List Char → Option (List Char × List Char)
  | [] => none
  | '.' :: '.' :: cs => some ([], cs)
  | c :: cs => (splitAtDots? cs).map fun (before, after) => (c :: before, after)

/-- The range `START..END` of a text, the first number not above the second. White space may stand
around either number. -/
def Span.ofText? (text : String) : Option Span := do
  let (before, after) ← splitAtDots? text.toList
  let start ← Text.decimal? limit (Text.trim before)
  let stop ← Text.decimal? limit (Text.trim after)
  if start ≤ stop then some ⟨start, stop⟩ else none

/-- **Reads a range.** -/
def readRange (text : String) : Except Failure Span :=
  match Span.ofText? text with
  | some range => .ok range
  | none => .error (.badRange text)

/-! ### Arguments -/

/-- What follows `lead` in a text that begins with it. -/
def after? : List Char → List Char → Option (List Char)
  | [], text => some text
  | _ :: _, [] => none
  | l :: lead, c :: text => if l = c then after? lead text else none

/-- **An argument,** by what it asks for. -/
inductive Argument where
  | rightLiterals (name : String)
  | bothLiterals (name : String)
  | range (text : String)
  | json
  /-- It begins like an option and is none. -/
  | unknown
  | path
  deriving DecidableEq, Repr

namespace Argument

/-- The flags that take a value, with what they ask for. -/
def valueFlags : List (String × (String → Argument)) :=
  [("--right-literal=", .rightLiterals), ("--both-literals=", .bothLiterals), ("--range=", .range)]

/-- Tries the flags that take a value. -/
def ofValueFlag? (arg : String) : Option Argument :=
  valueFlags.findSome? fun (lead, make) =>
    (after? lead.toList arg.toList).map fun value => make (String.ofList value)

/-- What an argument asks for. -/
def ofString (arg : String) : Argument :=
  match ofValueFlag? arg with
  | some argument => argument
  | none =>
    if arg = "--json" then .json
    else if arg.toList.head? = some '-' then .unknown
    else .path

end Argument

/-! ### Options -/

/-- **The options of a command.** -/
structure Options where
  path : Option String
  policy : Policy
  /-- Where to reorder, in byte offsets of each line; anywhere if nothing is said. -/
  range : Option Span
  /-- Whether ranges are reported as a document. -/
  json : Bool
  deriving DecidableEq, Repr

/-- What the arguments read so far have said. -/
structure Settings where
  path : Option String := none
  rightLiterals : Option RightLiterals := none
  bothLiterals : Option BothLiterals := none
  range : Option Span := none
  json : Bool := false
  deriving DecidableEq, Repr

namespace Settings

/-- Takes one more argument into account. -/
def add (s : Settings) (arg : String) : Except Failure Settings :=
  match Argument.ofString arg with
  | .rightLiterals name => .ok { s with rightLiterals := some (.ofName name) }
  | .bothLiterals name => .ok { s with bothLiterals := some (.ofName name) }
  | .range text => do
    let range ← readRange text
    .ok { s with range := some range }
  | .json => .ok { s with json := true }
  | .unknown => .error (.unknownOption arg)
  | .path =>
    match s.path with
    | none => .ok { s with path := some arg }
    | some _ => .error (.unexpectedArgument arg)

/-- Takes several arguments into account, one after the other. -/
def addAll : Settings → List String → Except Failure Settings
  | s, [] => .ok s
  | s, arg :: args =>
    match s.add arg with
    | .ok s => addAll s args
    | .error failure => .error failure

/-- The options, with the standard policy for what was not said. -/
def toOptions (s : Settings) : Options where
  path := s.path
  policy :=
    ⟨s.rightLiterals.getD Policy.standard.rightLiterals,
      s.bothLiterals.getD Policy.standard.bothLiterals⟩
  range := s.range
  json := s.json

end Settings

namespace Options

/-- The environment variable for literals on the right. -/
def rightLiteralsVariable : String := "SPARTAN_RIGHT_LITERAL"

/-- The environment variable for literals anywhere. -/
def bothLiteralsVariable : String := "SPARTAN_BOTH_LITERALS"

/-- What the environment says. -/
def environment (env : String → Option String) : Settings where
  rightLiterals := (env rightLiteralsVariable).map .ofName
  bothLiterals := (env bothLiteralsVariable).map .ofName

/-- **Reads the options** from an environment and the arguments. -/
def read (env : String → Option String) (args : List String) : Except Failure Options :=
  match (environment env).addAll args with
  | .ok settings => .ok settings.toOptions
  | .error failure => .error failure

/-- The file to work on. -/
def requiredPath (options : Options) : Except Failure String :=
  match options.path with
  | some path => .ok path
  | none => .error .missingPath

end Options

end OperandOrder
