import CellBindings.Analysis
import CellBindings.Scope

/-!
Effects: what a construct does to names, in the order of evaluation. An effect names its piece of
source by its span; the text is looked up when the effect is carried out.
-/

namespace CellBindings

inductive Effect where
  /-- Reads a name. -/
  | use (span : Span)
  /-- Assigns to a name, wherever that name is bound. -/
  | assign (kind : DefinitionKind) (span : Span)
  /-- Binds a name in the innermost frame. -/
  | bind (span : Span)
  /-- Defines a name for other cells, whatever frames there are. -/
  | define (kind : DefinitionKind) (span : Span)
  | declareGlobal (span : Span)
  /-- Carries out an updating operator; a plain one also assigns to its target, if that is a name. -/
  | update (operator : Span) (target : Option Span)
  /-- Effects inside a frame of their own. -/
  | scoped (kind : ScopeKind) (body : List Effect)
  deriving Repr

end CellBindings
