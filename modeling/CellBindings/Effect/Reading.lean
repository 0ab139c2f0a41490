import CellBindings.Effect.Basic
import CellBindings.Tree.Basic

/-!
From syntax trees to effects. What a node does to names depends on the place it stands in: evaluated
as a value, inside a quotation, left of an equals sign, as a parameter, or as a type variable. A
reading of a tree gives the effects of each node for all of these places, from the leaves up.
-/

namespace CellBindings

/-- The effects of a node by the place it stands in. -/
structure Roles where
  value : List Effect
  quoted : List Effect
  /-- Left of an equals sign; the kind is that of the names it binds. -/
  target : DefinitionKind → List Effect
  /-- As a parameter or another explicit binder. -/
  parameter : List Effect
  typeVariable : List Effect

/-- A tree with the roles of each node. -/
structure Reading where
  kind : Kind
  span : Span
  children : List Reading
  roles : Roles

namespace Reading

def values (nodes : List Reading) : List Effect := nodes.flatMap (·.roles.value)

def parameters (nodes : List Reading) : List Effect := nodes.flatMap (·.roles.parameter)

def firstValue (kind : Kind) (nodes : List Reading) : List Effect :=
  values (nodes.find? (·.kind == kind)).toList

/-- The parts of the head of a function or macro definition. -/
structure Signature where
  name : Option Reading
  /-- A callable object in place of a name. -/
  functor : Option Reading
  parameters : Option Reading
  typeVariables : List Reading
  returnTypes : List Reading

/-- The parts of a call that heads a definition. -/
def Signature.ofCall : List Reading → Signature
  | [] => ⟨none, none, none, [], []⟩
  | callee :: arguments =>
    let (callee, typeVariables) :=
      if callee.kind = .curlyExpression then (callee.children.head?, callee.children.drop 1)
      else (some callee, [])
    if callee.any (·.kind == .parenthesizedExpression) then
      ⟨none, callee, arguments.head?, typeVariables, []⟩
    else ⟨callee, none, arguments.head?, typeVariables, []⟩

/-- Type variables and return types are peeled off from the outside in. -/
def signature : Reading → Signature
  | ⟨.whereExpression, _, inner :: clauses, _⟩ =>
    let parts := inner.signature
    { parts with typeVariables := clauses ++ parts.typeVariables }
  | ⟨.typedExpression, _, inner :: types, _⟩ =>
    let parts := inner.signature
    { parts with returnTypes := types ++ parts.returnTypes }
  | ⟨.callExpression, _, children, _⟩ => Signature.ofCall children
  | ⟨.identifier, span, children, roles⟩ =>
    ⟨some ⟨.identifier, span, children, roles⟩, none, none, [], []⟩
  | node => ⟨none, none, some node, [], []⟩

/-- The left side of a short function definition. -/
def isSignature : Reading → Bool
  | ⟨.callExpression, _, callee :: _, _⟩ =>
    match callee.kind with
    | .identifier | .fieldExpression | .curlyExpression | .operator | .parenthesizedExpression => true
    | _ => false
  | ⟨.whereExpression, _, inner :: _, _⟩ | ⟨.typedExpression, _, inner :: _, _⟩ => inner.isSignature
  | _ => false

/-- The name of a definition is assigned outside its scope; a qualified name extends a function
that exists, and is read. -/
def calleeEffects (scope : ScopeKind) (callee : Reading) : List Effect :=
  match callee.kind with
  | .identifier | .operator =>
    [.assign (if scope = .macroBody then .macroName else .functionName) callee.span]
  | .fieldExpression => callee.roles.value
  | _ => []

/-- A function or macro: parameters, type variables and body share a frame of their own. -/
def callable (scope : ScopeKind) (parts : Signature) (body : List Effect) : List Effect :=
  parts.name.toList.flatMap (calleeEffects scope) ++
    [.scoped scope
      (parts.typeVariables.flatMap (·.roles.typeVariable) ++
        parameters parts.functor.toList ++ parameters parts.parameters.toList ++
        values parts.returnTypes ++ body)]

/-- The right side comes first, unless the left side heads a function. -/
def assignment (kind : DefinitionKind) (children : List Reading) : List Effect :=
  match children with
  | left :: _ :: right :: _ =>
    if left.isSignature then callable .function left.signature right.roles.value
    else right.roles.value ++ left.roles.target kind
  | _ => values children

def compoundAssignment (children : List Reading) : List Effect :=
  match children with
  | left :: operator :: right :: _ =>
    right.roles.value ++ left.roles.value ++
      [.update operator.span (if left.kind = .identifier then some left.span else none)]
  | _ => values children

/-- A label that is a plain name is not read. -/
def keywordArgument : List Reading → List Effect
  | [] => []
  | label :: value => (if label.kind = .identifier then [] else label.roles.value) ++ values value

/-- A field is not read unless it is interpolated. -/
def fieldExpression : List Reading → List Effect
  | [] => []
  | base :: fields =>
    base.roles.value ++ values (fields.head?.filter (·.kind == .interpolation)).toList

def definition (scope : ScopeKind) (children : List Reading) : List Effect :=
  let body := firstValue .block children
  match (children.find? (·.kind == .signature)).bind (·.children.head?) with
  | some head => callable scope head.signature body
  | none => [.scoped scope body]

def arrowFunction (children : List Reading) : List Effect :=
  [.scoped .function (parameters (children.take 1) ++ values ((children.drop 1).take 1))]

def doClause (children : List Reading) : List Effect :=
  [.scoped .function
    (parameters (children.find? (·.kind == .parameterList)).toList ++ firstValue .block children)]

def whereExpression (children : List Reading) : List Effect :=
  [.scoped .whereClause
    ((children.drop 1).flatMap (·.roles.typeVariable) ++ values (children.take 1))]

def letStatement (children : List Reading) : List Effect :=
  let bindings := (children.find? (·.kind == .letBindings)).toList.flatMap (·.children)
  [.scoped .letBlock (parameters bindings ++ firstValue .block children)]

/-- The iterable of a loop binding. -/
def iterable (binding : Reading) : List Effect := values ((binding.children.drop 1).take 1)

/-- The names of a loop binding. -/
def loopNames (binding : Reading) : List Effect := parameters (binding.children.take 1)

/-- Bindings after the first one: an iterable sees the names bound before it. -/
def laterBindings (bindings : List Reading) : List Effect :=
  bindings.flatMap fun binding => iterable binding ++ loopNames binding

/-- Bindings whose first iterable has been read outside. -/
def leadingBindings : List Reading → List Effect
  | [] => []
  | first :: rest => loopNames first ++ laterBindings rest

/-- The first iterable is read before the frame of the loop exists. -/
def forStatement (children : List Reading) : List Effect :=
  let bindings := children.filter (·.kind == .forBinding)
  bindings.head?.toList.flatMap iterable ++
    [.scoped .forLoop (leadingBindings bindings ++ firstValue .block children)]

def clause (node : Reading) : List Effect :=
  if node.kind = .forClause then laterBindings node.children else node.roles.value

/-- The first iterable is read before the frame of the comprehension exists. -/
def comprehension (children : List Reading) : List Effect :=
  let body := values (children.take 1)
  match children.drop 1 with
  | [] => [.scoped .comprehension body]
  | first :: rest =>
    if first.kind = .forClause then
      first.children.head?.toList.flatMap iterable ++
        [.scoped .comprehension (leadingBindings first.children ++ rest.flatMap clause ++ body)]
    else [.scoped .comprehension ((first :: rest).flatMap clause ++ body)]

def whileStatement (children : List Reading) : List Effect :=
  values (children.take 1) ++ [.scoped .whileLoop (firstValue .block children)]

/-- Each part of a `try` has a frame of its own; a name right behind `catch` is bound in it. -/
def tryPart (node : Reading) : Effect :=
  if node.kind = .catchClause then
    .scoped .catchBlock
      (node.children.flatMap fun part =>
        if part.kind = .identifier then [.bind part.span] else part.roles.value)
  else .scoped .tryBlock node.roles.value

/-- The declared name in the head of a type. -/
def typeName? : Reading → Option Reading
  | ⟨.identifier, span, children, roles⟩ => some ⟨.identifier, span, children, roles⟩
  | ⟨.curlyExpression, _, inner :: _, _⟩ | ⟨.binaryExpression, _, inner :: _, _⟩ => inner.typeName?
  | _ => none

def typeDefinition (kind : DefinitionKind) (children : List Reading) : List Effect :=
  let head := (children.find? (·.kind == .typeHead)).bind (·.children.head?)
  (head.bind typeName?).toList.map fun name => .define kind name.span

def moduleDefinition (children : List Reading) : List Effect :=
  (children.find? (·.kind == .identifier)).toList.map fun name => .define .moduleName name.span

/-- An import defines the last name of its path, or the name it is given. -/
def importItem (item : Reading) : List Effect :=
  let name :=
    match item.kind with
    | .importPath => item.children.getLast?
    | .importAlias => item.children[1]?
    | _ => none
  name.toList.map fun name => .define .importedName name.span

def importStatement (children : List Reading) : List Effect :=
  children.flatMap fun child =>
    if child.kind = .selectedImport then (child.children.drop 1).flatMap importItem
    else importItem child

def constStatement (children : List Reading) : List Effect :=
  children.flatMap fun child =>
    if child.kind = .assignment then assignment .constantName child.children
    else child.roles.value

mutual

/-- The names that a global declaration mentions. -/
def globalNames : Reading → List Effect
  | ⟨.identifier, span, _, _⟩ => [.declareGlobal span]
  | ⟨.tupleExpression, _, children, _⟩ | ⟨.parenthesizedExpression, _, children, _⟩ =>
    allGlobalNames children
  | ⟨.typedExpression, _, first :: _, _⟩ | ⟨.splatExpression, _, first :: _, _⟩
  | ⟨.assignment, _, first :: _, _⟩ | ⟨.compoundAssignment, _, first :: _, _⟩ =>
    globalNames first
  | _ => []

def allGlobalNames : List Reading → List Effect
  | [] => []
  | node :: rest => globalNames node ++ allGlobalNames rest

end

def globalStatement (children : List Reading) : List Effect :=
  children.flatMap fun child =>
    globalNames child ++
      if child.kind = .assignment ∨ child.kind = .compoundAssignment then child.roles.value else []

/-- The effects of a node as a value. -/
def valueEffects (kind : Kind) (span : Span) (children : List Reading) : List Effect :=
  match kind with
  | .identifier | .macroIdentifier => [.use span]
  | .error | .operator | .integerLiteral | .floatLiteral | .charLiteral | .booleanLiteral | .symbol
  | .colon | .indexKeyword | .breakStatement | .continueStatement | .exportStatement => []
  | .quoteExpression | .quoteStatement => children.flatMap (·.roles.quoted)
  | .assignment => assignment .variableName children
  | .compoundAssignment => compoundAssignment children
  | .keywordArgument => keywordArgument children
  | .fieldExpression => fieldExpression children
  | .functionDefinition => definition .function children
  | .macroDefinition => definition .macroBody children
  | .arrowFunction => arrowFunction children
  | .doClause => doClause children
  | .whereExpression => whereExpression children
  | .letStatement => letStatement children
  | .forStatement => forStatement children
  | .comprehension | .generator => comprehension children
  | .whileStatement => whileStatement children
  | .tryStatement => children.map tryPart
  | .structDefinition => typeDefinition .structName children
  | .abstractDefinition => typeDefinition .abstractTypeName children
  | .primitiveDefinition => typeDefinition .primitiveTypeName children
  | .moduleDefinition => moduleDefinition children
  | .importStatement | .usingStatement => importStatement children
  | .constStatement => constStatement children
  | .globalStatement => globalStatement children
  | .localStatement => parameters children
  | _ => values children

/-- Only interpolations reach out of a quotation. -/
def quotedEffects (kind : Kind) (children : List Reading) : List Effect :=
  if kind = .interpolation then values children else children.flatMap (·.roles.quoted)

/-- An index or a field left of an equals sign changes a value and binds nothing: it is read. -/
def targetEffects (kind : Kind) (span : Span) (children : List Reading) (value : List Effect)
    (assigned : DefinitionKind) : List Effect :=
  match kind with
  | .identifier => [.assign assigned span]
  | .typedExpression =>
    (children.take 1).flatMap (·.roles.target assigned) ++ values (children.drop 1)
  | .tupleExpression | .parenthesizedExpression | .keywordArguments =>
    children.flatMap (·.roles.target assigned)
  | .splatExpression | .curlyExpression => (children.take 1).flatMap (·.roles.target assigned)
  | _ => value

/-- The default of a parameter is evaluated before the parameter is bound. -/
def parameterEffects (kind : Kind) (span : Span) (children : List Reading) (value : List Effect) :
    List Effect :=
  match kind with
  | .identifier => [.bind span]
  | .typedExpression => parameters (children.take 1) ++ values (children.drop 1)
  | .keywordArgument => values (children.drop 1) ++ parameters (children.take 1)
  | .assignment => values (children.drop 2) ++ parameters (children.take 1)
  | .argumentList | .keywordArguments | .parameterList | .tupleExpression
  | .parenthesizedExpression => parameters children
  | .splatExpression => parameters (children.take 1)
  | _ => value

def typeVariableEffects (kind : Kind) (span : Span) (children : List Reading)
    (value : List Effect) : List Effect :=
  match kind with
  | .identifier => [.bind span]
  | .bracesExpression => children.flatMap (·.roles.typeVariable)
  | .binaryExpression =>
    (children.take 1).flatMap (·.roles.typeVariable) ++ values (children.drop 2)
  | _ => value

def build (kind : Kind) (span : Span) (children : List Reading) : Reading :=
  let value := valueEffects kind span children
  { kind, span, children
    roles :=
      { value
        quoted := quotedEffects kind children
        target := targetEffects kind span children value
        parameter := parameterEffects kind span children value
        typeVariable := typeVariableEffects kind span children value } }

end Reading

namespace Node

mutual

def reading : Node → Reading
  | ⟨kind, span, children⟩ => .build kind span (readings children)

def readings : List Node → List Reading
  | [] => []
  | node :: rest => reading node :: readings rest

end

/-- What a node does to names, as a value or inside a quotation. -/
def effects (quoted : Bool) (node : Node) : List Effect :=
  if quoted then node.reading.roles.quoted else node.reading.roles.value

end Node

end CellBindings
