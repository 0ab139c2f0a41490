import CellBindings.Failure
import CellBindings.JsonValue
import CellBindings.Report.Basic

/-!
Reports as JSON. Every response has its status first and the version of the format next.
-/

namespace CellBindings

def JsonValue.ofText (text : Text) : JsonValue := .string (String.ofList text)

def Span.members (span : Span) : List (String × JsonValue) :=
  [("from", .number span.start), ("to", .number span.stop)]

def Location.members (location : Location) : List (String × JsonValue) :=
  [("line", .number location.line), ("col", .number location.column)]

def Occurrence.toJson (o : Occurrence) : JsonValue :=
  .object (("name", .ofText o.name) :: o.span.members)

def Definition.toJson (d : Definition) : JsonValue :=
  .object (("kind", .string d.kind.render) :: d.span.members)

def Analysis.toJson (a : Analysis) : JsonValue :=
  .object
    [("locals", .array (a.locals.map Occurrence.toJson)),
      ("usages", .array (a.usages.map Occurrence.toJson)),
      ("definitions",
        .object (a.definitions.map fun (name, d) => (String.ofList name, d.toJson)))]

def PlacedOccurrence.toJson (o : PlacedOccurrence) : JsonValue :=
  .object (("name", .ofText o.name) :: o.span.members ++ o.location.members)

def PlacedDefinition.toJson (d : PlacedDefinition) : JsonValue :=
  .object
    (("name", .ofText d.name) :: ("kind", .string d.kind.render) :: d.span.members ++
      d.location.members)

def AnalysisReport.toJson (r : AnalysisReport) : JsonValue :=
  .object
    (("definitions", .array (r.definitions.map PlacedDefinition.toJson)) ::
      ("usages", .array (r.usages.map PlacedOccurrence.toJson)) ::
      match r.locals with
      | none => []
      | some locals => [("locals", .array (locals.map PlacedOccurrence.toJson))])

def CellReport.toJson (r : CellReport) : JsonValue :=
  .object
    (("id", .ofText r.id) :: ("offset", .number r.offset) :: ("line", .number r.line) ::
      match r.outcome with
      | .ok analysis => [("analysis", analysis.toJson)]
      | .error message => [("error", .string message)])

def NotebookReport.toJson (r : NotebookReport) : JsonValue :=
  .object [("file", .string r.file), ("cells", .array (r.cells.map CellReport.toJson))]

namespace Response

def version : String := "1"

def envelope (status : String) (members : List (String × JsonValue)) : JsonValue :=
  .object (("status", .string status) :: ("schema_version", .string version) :: members)

def analysis (label : String) (report : AnalysisReport) : JsonValue :=
  envelope "ok" [("file", .string label), ("analysis", report.toJson)]

def notebooks (reports : List NotebookReport) : JsonValue :=
  envelope "ok" [("notebooks", .array (reports.map NotebookReport.toJson))]

def tree (label : String) (outline : Text) : JsonValue :=
  envelope "ok" [("file", .string label), ("tree", .ofText outline)]

def failure (failure : Failure) : JsonValue :=
  envelope "error"
    [("error",
      .object [("code", .number failure.code), ("message", .string failure.message)])]

end Response

end CellBindings
