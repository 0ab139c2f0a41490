import CellBindings.Effect.Run
import CellBindings.Grammar.File

/-!
The analysis of a cell: its text is read into a tree, and the tree is explored.
-/

namespace CellBindings

structure Options where
  /-- The text stands inside a quotation. -/
  quoted : Bool
  includeLocals : Bool
  /-- Scopes around the text. -/
  enclosing : ScopeStack
  deriving DecidableEq, Repr

def Options.standard : Options := ⟨false, true, .empty⟩

def analyzeCell (text : Text) (options : Options) : Except ExploreError Analysis :=
  match explore text options.enclosing options.quoted (parse text) with
  | .error error => .error error
  | .ok analysis => .ok (if options.includeLocals then analysis else { analysis with locals := [] })

end CellBindings
