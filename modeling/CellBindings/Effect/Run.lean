import CellBindings.Effect.Reading

/-!
Carrying out effects. The state is a scope stack and the analysis so far. A frame is left again
whether or not its effects succeed, so the stack keeps its depth even when a name has no text.
-/

namespace CellBindings

inductive ExploreError where
  /-- The document ends before the tree does. -/
  | documentMismatch (treeEnd documentLength : Nat)
  /-- The document has no text at a span. -/
  | invalidRange (span : Span)
  deriving DecidableEq, Repr

def ExploreError.message : ExploreError → String
  | .documentMismatch treeEnd documentLength =>
    s!"document has {documentLength} bytes but the syntax tree reaches byte {treeEnd}"
  | .invalidRange span => s!"node range {span.render} is not valid in the document"

structure Explorer where
  scopes : ScopeStack
  analysis : Analysis
  deriving DecidableEq, Repr

/-- The name that is never recorded. -/
def wildcard : Text := ['_']

namespace Explorer

def use (e : Explorer) (name : Text) (span : Span) : Explorer :=
  if name = wildcard then e else { e with analysis := e.analysis.addUsage name span }

def define (e : Explorer) (name : Text) (kind : DefinitionKind) (span : Span) : Explorer :=
  if name = wildcard then e else { e with analysis := e.analysis.define name kind span }

/-- Outside all frames there is nothing to bind in, and the name is only noted. -/
def bind (e : Explorer) (name : Text) (span : Span) : Explorer :=
  if name = wildcard then e
  else
    { scopes := (e.scopes.bind? name).getD e.scopes
      analysis := e.analysis.addLocal name span }

/-- A name that is bound keeps its binding. One that is declared global, or that meets no frame, is
defined. Any other becomes a local of the innermost frame. -/
def assign (e : Explorer) (name : Text) (kind : DefinitionKind) (span : Span) : Explorer :=
  if name = wildcard then e
  else
    match e.scopes.resolve name with
    | .bound => e
    | .global => { e with analysis := e.analysis.define name kind span }
    | .free =>
      match e.scopes.bind? name with
      | some scopes => ⟨scopes, e.analysis.addLocal name span⟩
      | none => { e with analysis := e.analysis.define name kind span }

def declareGlobal (e : Explorer) (name : Text) : Explorer :=
  { e with scopes := (e.scopes.declareGlobal? name).getD e.scopes }

end Explorer

/-- A macro is known by its name with an at sign before it. -/
def DefinitionKind.key (kind : DefinitionKind) (name : Text) : Text :=
  if kind = .macroName then '@' :: name else name

namespace Effect

/-- Goes on with the text at a span, if the document has one there. -/
def withText (document : Text) (span : Span) (e : Explorer) (next : Text → Explorer) :
    Except ExploreError Unit × Explorer :=
  match document.slice? span with
  | none => (.error (.invalidRange span), e)
  | some text => (.ok (), next text)

mutual

def run (document : Text) : Effect → Explorer → Except ExploreError Unit × Explorer
  | .use span, e => withText document span e fun name => e.use name span
  | .assign kind span, e =>
    withText document span e fun name => e.assign (kind.key name) kind span
  | .bind span, e => withText document span e fun name => e.bind name span
  | .define kind span, e => withText document span e fun name => e.define name kind span
  | .declareGlobal span, e => withText document span e e.declareGlobal
  | .update operator target, e =>
    match document.slice? operator with
    | none => (.error (.invalidRange operator), e)
    | some text =>
      match target with
      | none => (.ok (), e)
      | some span =>
        if text.head? = some '.' then (.ok (), e)
        else withText document span e fun name => e.assign name .variableName span
  | .scoped kind body, e =>
    let (outcome, inner) := runAll document body { e with scopes := e.scopes.push kind }
    (outcome, { inner with scopes := inner.scopes.pop })

/-- Carries out effects in order, up to the first that fails. -/
def runAll (document : Text) : List Effect → Explorer → Except ExploreError Unit × Explorer
  | [], e => (.ok (), e)
  | effect :: rest, e =>
    match run document effect e with
    | (.ok (), next) => runAll document rest next
    | (.error error, next) => (.error error, next)

end

end Effect

/-- Sorts the names under a node, which stands inside the given scopes. -/
def explore (document : Text) (enclosing : ScopeStack) (quoted : Bool) (node : Node) :
    Except ExploreError Analysis :=
  if Text.byteSize document < node.span.stop then
    .error (.documentMismatch node.span.stop (Text.byteSize document))
  else
    match Effect.runAll document (node.effects quoted) ⟨enclosing, .empty⟩ with
    | (.ok (), e) => .ok e.analysis
    | (.error error, _) => .error error

end CellBindings
