import OperandOrder.Host.Options
import OperandOrder.Host.Source

/-!
# Commands

The command line as a function: `respond` takes a way to read files, the environment and the
arguments, and gives the exit code and the two outputs. `Command.file?` says which file, if any, a
command line is about to read, so that it can be read beforehand.
-/

namespace OperandOrder

/-- **The answer to a command line.** -/
structure Response where
  code : Nat
  stdout : String
  stderr : String
  deriving DecidableEq, Repr

/-- The commands that work on a file. -/
inductive FileCommand where
  /-- Print the file with operands reordered. -/
  | reorder
  /-- Report where operands can be reordered. -/
  | highlight
  /-- Fail if anything can be reordered. -/
  | check
  deriving DecidableEq, Repr

/-- **A command,** by its first argument. -/
inductive Command where
  | onFile (command : FileCommand)
  | help
  | version
  | unknown (name : String)
  deriving DecidableEq, Repr

namespace Command

def ofName : String → Command
  | "rewrite" => .onFile .reorder
  | "highlight" => .onFile .highlight
  | "check" => .onFile .check
  | "help" | "--help" | "-h" => .help
  | "version" | "--version" | "-V" => .version
  | name => .unknown name

/-- How the commands are used. -/
def usage : String :=
  String.join ([
    "Spartan (shortest operand first)",
    "",
    "Usage: spartan <command> <file> [options]",
    "",
    "Input files hold one expression per line; blank lines and `//` lines are skipped.",
    "",
    "Commands:",
    "  rewrite <file>       Print the file with every expression canonicalized",
    "  highlight <file>     Report where operands can be reordered",
    "  check <file>         Exit with status 1 if anything can be reordered",
    "  help                 Show this help message",
    "  version              Show version information",
    "",
    "Rewrite options:",
    "  --range=START..END   Only rewrite operators overlapping these line offsets",
    "",
    "Highlight options:",
    "  --json               Print ranges as JSON",
    "",
    "Literal policy (flag, then environment, then default):",
    "  --right-literal=<rule>   all | all-but-boolean-and-null (default) | none",
    "                           env: " ++ Options.rightLiteralsVariable,
    "  --both-literals=<rule>   all (default) | none",
    "                           env: " ++ Options.bothLiteralsVariable,
    "",
    "Examples:",
    "  spartan rewrite exprs.txt",
    "  spartan rewrite exprs.txt --range=0..12",
    "  spartan highlight exprs.txt --json",
    "  spartan check exprs.txt --both-literals=none",
    "  RUST_LOG=spartan_rules=debug spartan rewrite exprs.txt"].map (· ++ "\n"))

/-- The line that `version` prints. -/
def versionLine : String := "spartan 0.1.0\n"

end Command

namespace Response

/-- A success that prints a text. -/
def printing (text : String) : Response := ⟨0, text, ""⟩

/-- The answer to a command line that failed; an unknown command is told how commands are used. -/
def failing (failure : Failure) : Response :=
  match failure with
  | .unknownCommand _ => ⟨1, Command.usage, "error: " ++ failure.message ++ "\n\n"⟩
  | _ => ⟨1, "", "error: " ++ failure.message ++ "\n"⟩

end Response

/-- One reported range of a file. -/
def reportLine (path : String) (number : Nat) (range : Span) : String :=
  path ++ ":" ++ toString number ++ ":" ++ range.text ++ "\n"

/-- The answer of `highlight`: the lines with something to show, as a document or range by range. -/
def highlightResponse (options : Options) (path source : String) : Response :=
  let found := (highlightSource options.policy source).filter (!·.ranges.isEmpty)
  if options.json then .printing ((highlightDocument found).pretty ++ "\n")
  else
    .printing (String.join (found.flatMap fun line =>
      line.ranges.map (reportLine path line.number)))

/-- The answer of `check`: a file passes if nothing is shown on any line and no line has errors. -/
def checkResponse (options : Options) (path source : String) : Response :=
  let lines := highlightSource options.policy source
  let opportunities := (lines.flatMap (·.ranges)).length
  let faulty := (lines.filter (!·.errors.isEmpty)).length
  if opportunities = 0 ∧ faulty = 0 then
    .printing ("OK: " ++ path ++ " (" ++ toString lines.length ++ " expressions)\n")
  else
    ⟨1, "", path ++ ": " ++ toString opportunities ++ " operand reordering(s), " ++
      toString faulty ++ " line(s) with syntax errors\n"⟩

/-- The answer of a command to the text of its file. -/
def FileCommand.answer (options : Options) (path source : String) : FileCommand → Response
  | .reorder => .printing (reorderedText options.policy options.range source)
  | .highlight => highlightResponse options path source
  | .check => checkResponse options path source

/-- What is read before a command can answer: its options, then its file. -/
def FileCommand.respond (read : String → Except ReadFault String) (env : String → Option String)
    (args : List String) (command : FileCommand) : Response :=
  match Options.read env args with
  | .error failure => .failing failure
  | .ok options =>
    match options.requiredPath with
    | .error failure => .failing failure
    | .ok path =>
      match read path with
      | .error fault => .failing (.reading path fault)
      | .ok source => command.answer options path source

/-- **The answer to a command line.** -/
def respond (read : String → Except ReadFault String) (env : String → Option String) :
    List String → Response
  | [] => .printing Command.usage
  | name :: args =>
    match Command.ofName name with
    | .onFile command => command.respond read env args
    | .help => .printing Command.usage
    | .version => .printing Command.versionLine
    | .unknown name => .failing (.unknownCommand name)

/-- The file that a command line reads, if it comes to that. -/
def Command.file? (env : String → Option String) : List String → Option String
  | [] => none
  | name :: args =>
    match Command.ofName name with
    | .onFile _ =>
      match Options.read env args with
      | .ok options => options.path
      | .error _ => none
    | _ => none

end OperandOrder
