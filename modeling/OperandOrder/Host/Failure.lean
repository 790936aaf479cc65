/-!
# Failures of a command

Every way in which a command can fail before it has an answer, with its wording in
`Failure.message`.
-/

namespace OperandOrder

/-- Why a file could not be read. -/
inductive ReadFault where
  | notFound
  | permissionDenied
  /-- The file is no text. -/
  | invalidData
  | other (message : String)
  deriving DecidableEq, Repr

/-- What the system calls an error that reading a file can meet, by its number. -/
def systemErrorText : Nat → String
  | 5 => "Input/output error"
  | 6 => "No such device or address"
  | 12 => "Cannot allocate memory"
  | 20 => "Not a directory"
  | 21 => "Is a directory"
  | 22 => "Invalid argument"
  | 23 => "Too many open files in system"
  | 24 => "Too many open files"
  | 36 => "File name too long"
  | 40 => "Too many levels of symbolic links"
  | code => "Unknown error " ++ toString code

/-- **The fault behind an error of the system,** given by its number. -/
def ReadFault.ofSystem : Nat → ReadFault
  | 2 => .notFound
  | 1 | 13 => .permissionDenied
  | code => .other (systemErrorText code ++ " (os error " ++ toString code ++ ")")

/-- **Why a command failed.** -/
inductive Failure where
  | notFound (path : String)
  | permissionDenied (path : String)
  | invalidData (path : String)
  | unreadable (path : String) (message : String)
  | badRange (text : String)
  | unknownOption (arg : String)
  | unexpectedArgument (arg : String)
  | missingPath
  | unknownCommand (name : String)
  deriving DecidableEq, Repr

namespace Failure

/-- The failure of reading a file. -/
def reading (path : String) : ReadFault → Failure
  | .notFound => .notFound path
  | .permissionDenied => .permissionDenied path
  | .invalidData => .invalidData path
  | .other message => .unreadable path message

/-- How a failure is reported. -/
def message : Failure → String
  | .notFound path => "cannot find file '" ++ path ++ "'"
  | .permissionDenied path => "permission denied reading '" ++ path ++ "'"
  | .invalidData path => "'" ++ path ++ "' contains invalid UTF-8 data"
  | .unreadable path message => "error reading '" ++ path ++ "': " ++ message
  | .badRange text => "invalid range '" ++ text ++ "', expected START..END with START <= END"
  | .unknownOption arg => "unknown option '" ++ arg ++ "'"
  | .unexpectedArgument arg => "unexpected argument '" ++ arg ++ "'"
  | .missingPath => "missing file path"
  | .unknownCommand name => "unknown command '" ++ name ++ "'"

end Failure

end OperandOrder
