import CellBindings.Cell
import CellBindings.Notebook.Basic
import CellBindings.Report.Json

/-!
The analysis of a notebook: each cell is analysed on its own, and a failing cell does not stop the
others. A report gives positions in the file.
-/

namespace CellBindings

/-- What was found in one cell of a notebook. -/
structure CellAnalysis where
  id : Text
  offset : Nat
  disabled : Bool
  outcome : Except ExploreError Analysis

def CellAnalysis.toJson (a : CellAnalysis) : JsonValue :=
  .object
    (("cell_id", .ofText a.id) :: ("offset", .number a.offset) :: ("disabled", .bool a.disabled) ::
      match a.outcome with
      | .ok analysis => [("result", analysis.toJson)]
      | .error error => [("error", .string error.message)])

namespace Notebook

def analyze (notebook : Notebook) (options : Options) : List CellAnalysis :=
  notebook.cells.map fun cell =>
    ⟨cell.id, cell.offset, cell.disabled, analyzeCell cell.code options⟩

end Notebook

def CellAnalysis.report (a : CellAnalysis) (content : Text) (includeLocals : Bool) : CellReport :=
  { id := a.id
    offset := a.offset
    line := (content.location a.offset).line
    outcome :=
      match a.outcome with
      | .ok analysis => .ok (analysis.report content a.offset includeLocals)
      | .error error => .error error.message }

def notebookReport (file : String) (content : Text) (options : Options) :
    Except NotebookError NotebookReport :=
  match Notebook.read content with
  | .error error => .error error
  | .ok notebook =>
    .ok ⟨file, (notebook.analyze options).map (·.report content options.includeLocals)⟩

end CellBindings
