import CellBindings.CommandLine
import CellBindings.FileTree
import CellBindings.Notebook.Analysis
import CellBindings.Tree.Outline

/-!
Commands: what each writes for its input. A command writes all of its output or fails with nothing
written, and a failure is written as a response of its own with an exit code.
-/

namespace CellBindings

/-- A text with the label that output gives it. -/
structure Input where
  label : String
  text : Text
  deriving DecidableEq, Repr

def Settings.options (settings : Settings) : Options :=
  ⟨settings.quoted, settings.includeLocals, .empty⟩

namespace Command

/-- Renders a response with its line break. -/
def response (value : JsonValue) : String := value.renderLine .indented

/-- A heading with the distinct names of a list in order. -/
def nameLine (indent heading : String) (names : List Text) : String :=
  s!"{indent}{heading}: " ++
    String.intercalate ", " ((Text.distinct names).map String.ofList) ++ "\n"

def summary (indent : String) (report : AnalysisReport) : String :=
  nameLine indent "definitions" (report.definitions.map (·.name)) ++
    nameLine indent "usages" (report.usages.map (·.name)) ++
    match report.locals with
    | none => ""
    | some locals => nameLine indent "locals" (locals.map (·.name))

def cellSummary (report : CellReport) : String :=
  let place := s!"  {String.ofList report.id} (line {report.line})"
  match report.outcome with
  | .ok analysis => place ++ "\n" ++ summary "    " analysis
  | .error message => s!"{place}: error: {message}\n"

def notebookSummary (report : NotebookReport) : String :=
  report.file ++ "\n" ++ String.join (report.cells.map cellSummary)

def analyzeInput (settings : Settings) (input : Input) : Except Failure String :=
  match analyzeCell input.text settings.options with
  | .error error => .error (.internal error.message)
  | .ok analysis =>
    let report := analysis.report input.text 0 settings.includeLocals
    .ok (match settings.format with
      | .json => response (Response.analysis input.label report)
      | .text => input.label ++ "\n" ++ summary "  " report)

def treeOfInput (format : OutputFormat) (input : Input) : String :=
  let outline := (parse input.text).outline input.text
  match format with
  | .json => response (Response.tree input.label outline)
  | .text => String.ofList outline

/-- A regular file by its path. -/
abbrev FileAt := Text × ByteArray

/-- The text of a file. -/
def fileText (file : FileAt) : Except Failure Text :=
  match FileTree.decode? file.2 with
  | none => .error (.ofRead (String.ofList file.1) .notText)
  | some text => .ok text

/-- The notebooks of a list of files, unless one of the files is no text. -/
def selectNotebooks : List FileAt → Except Failure (List FileAt)
  | [] => .ok []
  | file :: rest =>
    match fileText file with
    | .error failure => .error failure
    | .ok text =>
      match selectNotebooks rest with
      | .error failure => .error failure
      | .ok found => .ok (if Notebook.isNotebook text then file :: found else found)

/-- The extension of files that may hold a notebook. -/
def sourceExtension : Text := ['j', 'l']

def sourceFile? : Text × FileTree → Option FileAt
  | (_, .directory _) => none
  | (path, .file content) =>
    if FileTree.hasExtension sourceExtension path then some (path, content) else none

/-- The notebooks behind a path. A file is taken as it is, and a directory is searched along a
walk. -/
def collectAlong (walk : FileTree.Traversal) (files : Text → Except ReadError FileTree)
    (path : Text) : Except Failure (List FileAt) :=
  match files path with
  | .error _ => .error (.fileNotFound (String.ofList path))
  | .ok (.file content) => .ok [(path, content)]
  | .ok (.directory entries) =>
    selectNotebooks ((walk path (.directory entries)).filterMap sourceFile?)

def collectNotebooks (files : Text → Except ReadError FileTree) (path : Text) :
    Except Failure (List FileAt) :=
  collectAlong FileTree.walk files path

def notebookFile (settings : Settings) (file : FileAt) : Except Failure NotebookReport :=
  match fileText file with
  | .error failure => .error failure
  | .ok content =>
    match notebookReport (String.ofList file.1) content settings.options with
    | .error error => .error (.unparsable (String.ofList file.1) error.message)
    | .ok report => .ok report

/-- One response that holds all reports, or a summary of each. -/
def notebooksOutput (format : OutputFormat) (reports : List NotebookReport) : String :=
  match format with
  | .json => response (Response.notebooks reports)
  | .text => String.join (reports.map notebookSummary)

def notebooksAlong (walk : FileTree.Traversal) (settings : Settings)
    (files : Text → Except ReadError FileTree) (path : Text) : Except Failure String := do
  let found ← collectAlong walk files path
  let reports ← found.mapM (notebookFile settings)
  return notebooksOutput settings.format reports

def notebooksAt (settings : Settings) (files : Text → Except ReadError FileTree) (path : Text) :
    Except Failure String :=
  notebooksAlong FileTree.walk settings files path

/-- A hyphen stands for standard input, also with slashes and dots after it. -/
def isStandardInput (path : Text) : Bool :=
  match path.splitOn '/' with
  | ['-'] :: rest => rest.all fun part => part == [] || part == ['.']
  | _ => false

/-- The path that a command reads, unless it reads standard input. -/
def path? : Command → Option Text
  | .analyze path | .tree path => path.filter (!isStandardInput ·)
  | .notebook path => some path

/-- The text of what stands at a path, under its label. -/
def inputAt (label : Text) (found : Except ReadError FileTree) : Except Failure Input :=
  match found.bind FileTree.text with
  | .error error => .error (.ofRead (String.ofList label) error)
  | .ok text => .ok ⟨String.ofList label, text⟩

def standardInputLabel : Text := ['<', 's', 't', 'd', 'i', 'n', '>']

/-- The text of a file, or of standard input when there is no path. -/
def readInput (files : Text → Except ReadError FileTree) (standardInput : ByteArray)
    (path : Option Text) : Except Failure Input :=
  match path.filter (!isStandardInput ·) with
  | none => inputAt standardInputLabel (.ok (.file standardInput))
  | some path => inputAt path (files path)

end Command

/-- What a run leaves behind. -/
structure Outcome where
  exitCode : Nat
  output : String
  deriving DecidableEq, Repr

namespace Request

/-- What a request writes, given what stands at each path. -/
def output (request : Request) (files : Text → Except ReadError FileTree)
    (standardInput : ByteArray) : Except Failure String :=
  match request.command with
  | .analyze path =>
    (Command.readInput files standardInput path).bind (Command.analyzeInput request.settings)
  | .tree path =>
    (Command.readInput files standardInput path).map (Command.treeOfInput request.settings.format)
  | .notebook path => Command.notebooksAt request.settings files path

def run (request : Request) (files : Text → Except ReadError FileTree)
    (standardInput : ByteArray) : Outcome :=
  match request.output files standardInput with
  | .ok output => ⟨0, output⟩
  | .error failure => ⟨failure.code, Command.response (Response.failure failure)⟩

end Request

/-- The name and version that the program goes by. -/
def versionLine : String := "cellscope 0.1.0\n"

def usage : String :=
  "usage: cellscope [FLAGS] analyze [--quoted] [FILE]\n" ++
  "       cellscope [FLAGS] notebook PATH\n" ++
  "       cellscope [FLAGS] tree [FILE]\n" ++
  "flags: --format json|text, --no-locals, --log-level LEVEL, --log-format text|json\n"

/-- A wrong command line writes nothing and has an exit code of its own. -/
def Interruption.outcome : Interruption → Outcome
  | .version => ⟨0, versionLine⟩
  | .help => ⟨0, usage⟩
  | .misuse _ => ⟨2, ""⟩

def runCommandLine (arguments : List Text) (files : Text → Except ReadError FileTree)
    (standardInput : ByteArray) : Outcome :=
  match CommandLine.read arguments with
  | .error interruption => interruption.outcome
  | .ok request => request.run files standardInput

end CellBindings
