import CellBindings.Analysis
import CellBindings.Text.Lines

/-!
Reports: an analysis with its names placed in a source. The analysis may be that of a part of the
source, which starts at the base offset.
-/

namespace CellBindings

structure PlacedOccurrence where
  name : Text
  span : Span
  location : Location
  deriving DecidableEq, Repr

structure PlacedDefinition where
  name : Text
  kind : DefinitionKind
  span : Span
  location : Location
  deriving DecidableEq, Repr

structure AnalysisReport where
  definitions : List PlacedDefinition
  usages : List PlacedOccurrence
  /-- Absent when locals are not wanted. -/
  locals : Option (List PlacedOccurrence)
  deriving DecidableEq, Repr

def Span.shift (span : Span) (base : Nat) : Span := ⟨base + span.start, base + span.stop⟩

namespace Analysis

def report (a : Analysis) (source : Text) (base : Nat) (includeLocals : Bool) : AnalysisReport :=
  let index := LineIndex.ofText source
  let locate (span : Span) : Location := index.location source (base + span.start)
  let place (o : Occurrence) : PlacedOccurrence := ⟨o.name, o.span.shift base, locate o.span⟩
  { definitions := a.definitions.map fun (name, definition) =>
      ⟨name, definition.kind, definition.span.shift base, locate definition.span⟩
    usages := a.usages.map place
    locals := if includeLocals then some (a.locals.map place) else none }

end Analysis

/-- What is reported of one cell of a notebook. -/
structure CellReport where
  id : Text
  offset : Nat
  /-- The line where the code of the cell starts. -/
  line : UInt32
  outcome : Except String AnalysisReport

structure NotebookReport where
  file : String
  cells : List CellReport

end CellBindings
