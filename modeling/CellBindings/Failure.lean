/-!
Failures of a command: what went wrong, the message for the reader and the exit code.
-/

namespace CellBindings

/-- Why a file has no text. -/
inductive ReadError where
  | notFound
  /-- The path leads to a directory. -/
  | isDirectory
  /-- The path goes on after a file. -/
  | notDirectory
  | notText
  | system (message : String)
  deriving DecidableEq, Repr

def ReadError.message : ReadError → String
  | .notFound => "No such file or directory (os error 2)"
  | .isDirectory => "Is a directory (os error 21)"
  | .notDirectory => "Not a directory (os error 20)"
  | .notText => "stream did not contain valid UTF-8"
  | .system message => message

inductive Failure where
  | invalidArguments (message : String)
  | fileNotFound (path : String)
  | unreadable (path message : String)
  | unparsable (label message : String)
  | internal (message : String)
  deriving DecidableEq, Repr

namespace Failure

def ofRead (path : String) : ReadError → Failure
  | .notFound => .fileNotFound path
  | error => .unreadable path error.message

def message : Failure → String
  | .invalidArguments message => s!"invalid arguments: {message}"
  | .fileNotFound path => s!"file not found: {path}"
  | .unreadable path message => s!"failed to read {path}: {message}"
  | .unparsable label message => s!"parse error in {label}: {message}"
  | .internal message => s!"internal error: {message}"

def code : Failure → Nat
  | .invalidArguments _ => 2
  | .fileNotFound _ | .unreadable _ _ => 3
  | .unparsable _ _ => 4
  | .internal _ => 10

end Failure

end CellBindings
