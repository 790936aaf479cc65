import OperandOrder.Host.Command

/-!
# The program

Reads the arguments, the environment and the file, and hands them to `respond`.
-/

namespace OperandOrder

/-- The number of a system error, if it has one. Some are reported with a minus sign. -/
def systemCode? : IO.Error → Option Nat
  | .alreadyExists _ code _ | .otherError code _ | .resourceBusy code _ | .resourceVanished code _
  | .unsupportedOperation code _ | .hardwareFault code _ | .unsatisfiedConstraints code _
  | .illegalOperation code _ | .protocolError code _ | .timeExpired code _ | .interrupted _ code _
  | .noFileOrDirectory _ code _ | .invalidArgument _ code _ | .permissionDenied _ code _
  | .resourceExhausted _ code _ | .inappropriateType _ code _ | .noSuchThing _ code _ =>
    some code.toInt32.toInt.natAbs
  | .unexpectedEof | .userError _ => none

/-- Why reading a file went wrong. -/
def ReadFault.ofError (error : IO.Error) : ReadFault :=
  match systemCode? error with
  | some code => .ofSystem code
  | none => .other (toString error)

/-- Reads a file as text. -/
def readText (path : String) : IO (Except ReadFault String) := do
  try
    let bytes ← IO.FS.readBinFile path
    match String.fromUTF8? bytes with
    | some text => return .ok text
    | none => return .error .invalidData
  catch error => return .error (.ofError error)

/-- The environment variables that the options look at. -/
def readEnvironment : IO (String → Option String) := do
  let rightLiterals ← IO.getEnv Options.rightLiteralsVariable
  let bothLiterals ← IO.getEnv Options.bothLiteralsVariable
  return fun name =>
    if name = Options.rightLiteralsVariable then rightLiterals
    else if name = Options.bothLiteralsVariable then bothLiterals
    else none

end OperandOrder

open OperandOrder in
/-- Answers one command line. -/
def main (args : List String) : IO UInt32 := do
  let env ← readEnvironment
  let content ← match Command.file? env args with
    | some path => readText path
    | none => pure (.error .notFound)
  let response := respond (fun _ => content) env args
  IO.print response.stdout
  IO.eprint response.stderr
  return response.code.toUInt32
