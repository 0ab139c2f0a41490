import CellBindings.Text.Order

/-!
The analysis of a cell: what it defines for other cells, what it reads, and what it binds for itself
only. Reads and locals are listed in the order of discovery. Definitions are keyed by name: a name
keeps the place of its first definition and the details of its last.
-/

namespace CellBindings

/-- One appearance of a name. -/
structure Occurrence where
  name : Text
  span : Span
  deriving DecidableEq, Repr

/-- The construct behind a definition. -/
inductive DefinitionKind where
  | variableName | constantName | functionName | macroName | structName | abstractTypeName
  | primitiveTypeName | moduleName | importedName
  deriving DecidableEq, Repr

def DefinitionKind.render : DefinitionKind → String
  | .variableName => "variable"
  | .constantName => "constant"
  | .functionName => "function"
  | .macroName => "macro"
  | .structName => "struct"
  | .abstractTypeName => "abstract_type"
  | .primitiveTypeName => "primitive_type"
  | .moduleName => "module"
  | .importedName => "import"

structure Definition where
  kind : DefinitionKind
  span : Span
  deriving DecidableEq, Repr

structure Analysis where
  definitions : List (Text × Definition)
  usages : List Occurrence
  locals : List Occurrence
  deriving DecidableEq, Repr

namespace Analysis

def empty : Analysis := ⟨[], [], []⟩

def addUsage (a : Analysis) (name : Text) (span : Span) : Analysis :=
  { a with usages := a.usages ++ [⟨name, span⟩] }

def addLocal (a : Analysis) (name : Text) (span : Span) : Analysis :=
  { a with locals := a.locals ++ [⟨name, span⟩] }

/-- Puts a definition in the place of its name, at the end if the name is new. -/
def insert (name : Text) (definition : Definition) :
    List (Text × Definition) → List (Text × Definition)
  | [] => [(name, definition)]
  | (key, old) :: rest =>
    if key = name then (key, definition) :: rest else (key, old) :: insert name definition rest

def define (a : Analysis) (name : Text) (kind : DefinitionKind) (span : Span) : Analysis :=
  { a with definitions := insert name ⟨kind, span⟩ a.definitions }

def isEmpty (a : Analysis) : Bool :=
  a.definitions.isEmpty && a.usages.isEmpty && a.locals.isEmpty

def uses (a : Analysis) (name : Text) : Bool := a.usages.any (·.name == name)

def defines (a : Analysis) (name : Text) : Bool := a.definitions.any (·.1 == name)

def definitionNames (a : Analysis) : List Text := Text.distinct (a.definitions.map (·.1))

def usageNames (a : Analysis) : List Text := Text.distinct (a.usages.map (·.name))

def localNames (a : Analysis) : List Text := Text.distinct (a.locals.map (·.name))

end Analysis

end CellBindings
