import CellBindings.Text.Basic

/-!
The command line. Flags may stand before the command or after it. Each is given at most once on
either side, and what is given after the command counts. Two hyphens end the flags that follow the
command. Flags on logging are checked and change nothing that is written to standard output.
-/

namespace CellBindings

inductive OutputFormat where
  | json | text
  deriving DecidableEq, Repr

/-- How a command works and writes. -/
structure Settings where
  format : OutputFormat
  includeLocals : Bool
  quoted : Bool
  deriving DecidableEq, Repr

inductive Command where
  /-- Analyse a file, or standard input. -/
  | analyze (path : Option Text)
  /-- Analyse a notebook, or the notebooks of a directory. -/
  | notebook (path : Text)
  /-- Show the syntax tree of a file, or of standard input. -/
  | tree (path : Option Text)
  deriving DecidableEq, Repr

structure Request where
  settings : Settings
  command : Command
  deriving DecidableEq, Repr

inductive UsageError where
  | missingCommand
  | unknownCommand (word : Text)
  | unknownFlag (name : Text)
  | repeatedFlag (name : Text)
  | missingValue (name : Text)
  | unexpectedValue (name value : Text)
  | unexpectedArgument (word : Text)
  | missingPath
  | emptyPath
  | unexpectedTopic
  deriving DecidableEq, Repr

def UsageError.message : UsageError → String
  | .missingCommand => "a command is required"
  | .unknownCommand word => s!"unknown command: {String.ofList word}"
  | .unknownFlag name => s!"unknown flag: {String.ofList name}"
  | .repeatedFlag name => s!"flag given twice: {String.ofList name}"
  | .missingValue name => s!"flag needs a value: {String.ofList name}"
  | .unexpectedValue name value =>
    s!"unexpected value for {String.ofList name}: {String.ofList value}"
  | .unexpectedArgument word => s!"unexpected argument: {String.ofList word}"
  | .missingPath => "a path is required"
  | .emptyPath => "a path may not be empty"
  | .unexpectedTopic => "help is given on one command at most"

/-- What a command line asks for instead of a command. -/
inductive Interruption where
  | version
  | help
  | misuse (error : UsageError)
  deriving DecidableEq, Repr

namespace CommandLine

inductive Flag where
  | logLevel | logFormat | format | noLocals | quoted
  deriving DecidableEq, Repr

def Flag.name : Flag → Text
  | .logLevel => "log-level".toList
  | .logFormat => "log-format".toList
  | .format => "format".toList
  | .noLocals => "no-locals".toList
  | .quoted => "quoted".toList

/-- The values that a flag takes; a switch takes none. -/
def Flag.values : Flag → List Text
  | .logLevel => ["trace", "debug", "info", "warn", "error"].map String.toList
  | .logFormat | .format => ["text", "json"].map String.toList
  | .noLocals | .quoted => []

/-- Flags that every command takes. -/
def globalFlags : List Flag := [.logLevel, .logFormat, .format, .noLocals]

def takesValue (name : Text) : Bool :=
  globalFlags.any fun flag => flag.name == name && !flag.values.isEmpty

/-- An argument by its form. -/
inductive Word where
  | plain (word : Text)
  | flag (name : Text) (value : Option Text)
  /-- Letters after a single hyphen. -/
  | letters (first : Char) (rest : Text)
  | endOfFlags
  deriving DecidableEq, Repr

/-- A hyphen on its own is a plain word. -/
def Word.ofArgument : Text → Word
  | ['-', '-'] => .endOfFlags
  | '-' :: '-' :: rest =>
    match rest.dropWhile (· != '=') with
    | [] => .flag rest none
    | _ :: value => .flag (rest.takeWhile (· != '=')) (some value)
  | '-' :: first :: rest => .letters first rest
  | word => .plain word

/-- The forms of arguments in order; a flag that takes a value has the plain word after it. -/
def words : List Text → List Word
  | [] => []
  | argument :: rest =>
    match Word.ofArgument argument with
    | .endOfFlags => .endOfFlags :: rest.map .plain
    | .flag name none =>
      if takesValue name then
        match rest with
        | [] => [.flag name none]
        | next :: others =>
          match Word.ofArgument next with
          | .plain value => .flag name (some value) :: words others
          | _ => .flag name none :: words (next :: others)
      else .flag name none :: words rest
    | word => word :: words rest

/-- What is given on one side of the command. -/
structure Given where
  flags : List (Flag × Text)
  path : Option Text
  deriving DecidableEq, Repr

namespace Given

def empty : Given := ⟨[], none⟩

def value? (given : Given) (flag : Flag) : Option Text := given.flags.lookup flag

/-- Adds a flag, with an empty value for a switch. -/
def addFlag (given : Given) (flag : Flag) (value : Option Text) : Except UsageError Given :=
  if (given.value? flag).isSome then .error (.repeatedFlag flag.name)
  else
    match value with
    | none =>
      if flag.values.isEmpty then .ok { given with flags := (flag, []) :: given.flags }
      else .error (.missingValue flag.name)
    | some text =>
      if flag.values.contains text then .ok { given with flags := (flag, text) :: given.flags }
      else .error (.unexpectedValue flag.name text)

def addNamed (allowed : List Flag) (given : Given) (name : Text) (value : Option Text) :
    Except Interruption Given :=
  match allowed.find? (·.name == name) with
  | none => .error (.misuse (.unknownFlag name))
  | some flag =>
    match given.addFlag flag value with
    | .error error => .error (.misuse error)
    | .ok next => .ok next

/-- Adds a path, of which there is at most one. -/
def addPath (given : Given) (path : Text) : Except UsageError Given :=
  if given.path.isSome then .error (.unexpectedArgument path)
  else if path.isEmpty then .error .emptyPath
  else .ok { given with path := some path }

end Given

def helpName : Text := "help".toList

/-- Reads what follows the command. Arguments are read in order, and the first one that is refused
or asks for help decides. -/
def readArguments (allowed : List Flag) (given : Given) : List Word → Except Interruption Given
  | [] => .ok given
  | .endOfFlags :: rest => readArguments allowed given rest
  | .plain word :: rest =>
    match given.addPath word with
    | .error error => .error (.misuse error)
    | .ok next => readArguments allowed next rest
  | .letters first _ :: _ =>
    .error (if first = 'h' then .help else .misuse (.unknownFlag [first]))
  | .flag name value :: rest =>
    if name = helpName ∧ value = none then .error .help
    else
      match given.addNamed allowed name value with
      | .error interruption => .error interruption
      | .ok next => readArguments allowed next rest

/-- Flags after the command win over those before it. -/
def settings (before after : Given) : Settings :=
  let format := (after.value? .format <|> before.value? .format).getD "json".toList
  { format := if format = "text".toList then .text else .json
    includeLocals := (before.value? .noLocals <|> after.value? .noLocals).isNone
    quoted := (after.value? .quoted).isSome }

def command (name : Text) (path : Option Text) : Except Interruption Command :=
  if name = "analyze".toList then .ok (.analyze path)
  else if name = "tree".toList then .ok (.tree path)
  else
    match path with
    | none => .error (.misuse .missingPath)
    | some path => .ok (.notebook path)

/-- The names of commands, each with the flags of its own. -/
def commandFlags : List (Text × List Flag) :=
  [("analyze".toList, [.quoted]), ("notebook".toList, []), ("tree".toList, [])]

/-- Reads what follows `help`: nothing, or the name of the command to explain. -/
def readTopic : List Word → Interruption
  | [] => .help
  | [.plain name] =>
    if name = helpName ∨ (commandFlags.lookup name).isSome then .help
    else .misuse (.unknownCommand name)
  | _ => .misuse .unexpectedTopic

/-- Reads a command line, given what stands before the command. -/
def readFrom (given : Given) : List Word → Except Interruption Request
  | [] => .error (.misuse .missingCommand)
  | .endOfFlags :: _ => .error (.misuse .missingCommand)
  | .plain name :: rest =>
    match commandFlags.lookup name with
    | none =>
      .error (if name = helpName then readTopic rest else .misuse (.unknownCommand name))
    | some own => do
      let after ← readArguments (own ++ globalFlags) .empty rest
      return ⟨settings given after, ← command name after.path⟩
  | .letters first _ :: _ =>
    .error (if first = 'V' then .version else if first = 'h' then .help
      else .misuse (.unknownFlag [first]))
  | .flag name value :: rest =>
    if name = "version".toList ∧ value = none then .error .version
    else if name = helpName ∧ value = none then .error .help
    else
      match given.addNamed globalFlags name value with
      | .error interruption => .error interruption
      | .ok next => readFrom next rest

def read (arguments : List Text) : Except Interruption Request := readFrom .empty (words arguments)

end CommandLine

end CellBindings
