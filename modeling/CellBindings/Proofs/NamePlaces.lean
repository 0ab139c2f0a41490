import CellBindings.Proofs.EffectLaws
import CellBindings.Proofs.TreeShapes

/-!
The places in which the parts of a tree are looked at. The effects of a node look at each of its
children at most once, in one place. `Place.inside` is the table of these places, and
`Node.mentions` counts by it how often a tree mentions a name. The two agree: the effects of a
formed tree mention every name as often as the table says.
-/

namespace CellBindings

inductive Mention where
  | read | bind
  /-- By an updating operator. -/
  | update
  deriving DecidableEq, Repr

structure Site where
  mention : Mention
  span : Span
  deriving DecidableEq, Repr

def Site.tally (site other : Site) : Nat := if site = other then 1 else 0

namespace Site

variable {m m' : Mention} {span other : Span}

theorem tally_self (site : Site) : site.tally site = 1 := if_pos rfl

theorem tally_of_ne (h : m ≠ m') : tally ⟨m, span⟩ ⟨m', other⟩ = 0 := by simp [tally, h]

/-- Sites of the same mention are told apart by their spans. -/
theorem tally_span (m m' : Mention) :
    tally ⟨m, span⟩ ⟨m, other⟩ = tally ⟨m', span⟩ ⟨m', other⟩ := by simp [tally]

end Site

namespace Effect

mutual

def count (site : Site) : Effect → Nat
  | .use span => site.tally ⟨.read, span⟩
  | .assign _ span | .bind span | .define _ span => site.tally ⟨.bind, span⟩
  | .declareGlobal _ | .update _ none => 0
  | .update _ (some span) => site.tally ⟨.update, span⟩
  | .scoped _ body => countAll site body

def countAll (site : Site) : List Effect → Nat
  | [] => 0
  | effect :: rest => count site effect + countAll site rest

end

end Effect

/-- Where a node stands, as far as names go. -/
inductive Place where
  | value | quoted
  | target (kind : DefinitionKind)
  /-- The assignment behind `const`. -/
  | constant
  | parameter | typeVariable
  | signature (scope : ScopeKind)
  /-- The head of a function or macro, without its body. -/
  | head (scope : ScopeKind)
  | callee (scope : ScopeKind)
  /-- A callee without type variables. -/
  | bareCallee (scope : ScopeKind)
  /-- The bindings of a `let`. -/
  | bindings
  /-- A loop binding. -/
  | loop
  /-- A `for` clause. -/
  | clause
  /-- A `catch` clause. -/
  | handler
  | typeHead (kind : DefinitionKind)
  | typeName (kind : DefinitionKind)
  | declared (kind : DefinitionKind)
  | imported
  /-- Names taken from a module. -/
  | selected
  deriving DecidableEq, Repr

def Node.headsFunction (node : Node) : Bool :=
  node.children.head?.any fun left => left.reading.isSignature

namespace Place

def asTarget (kind : DefinitionKind) : Kind → Place
  | .identifier | .typedExpression | .tupleExpression | .parenthesizedExpression
  | .keywordArguments | .splatExpression | .curlyExpression => .target kind
  | _ => .value

def asParameter : Kind → Place
  | .identifier | .typedExpression | .keywordArgument | .assignment | .argumentList
  | .keywordArguments | .parameterList | .tupleExpression | .parenthesizedExpression
  | .splatExpression => .parameter
  | _ => .value

def asTypeVariable : Kind → Place
  | .identifier | .bracesExpression | .binaryExpression => .typeVariable
  | _ => .value

def asHead (scope : ScopeKind) : Kind → Place
  | .identifier | .whereExpression | .typedExpression | .callExpression => .head scope
  | kind => asParameter kind

def asBareCallee (scope : ScopeKind) : Kind → Place
  | .fieldExpression => .value
  | .parenthesizedExpression => .parameter
  | _ => .bareCallee scope

def asCallee (scope : ScopeKind) : Kind → Place
  | .curlyExpression => .callee scope
  | kind => asBareCallee scope kind

/-- The place that a node of this kind really takes: what cannot be bound is read. -/
def settle (kind : Kind) : Place → Place
  | .target assigned => asTarget assigned kind
  | .parameter => asParameter kind
  | .typeVariable => asTypeVariable kind
  | .head scope => asHead scope kind
  | .callee scope => asCallee scope kind
  | .bareCallee scope => asBareCallee scope kind
  | place => place

def own (place : Place) (node : Node) : Option Site :=
  match place with
  | .value =>
    match node.kind with
    | .identifier | .macroIdentifier => some ⟨.read, node.span⟩
    | .compoundAssignment => node.children.head?.bind fun left =>
        if left.kind = .identifier then some ⟨.update, left.span⟩ else none
    | _ => none
  | .target _ | .parameter | .typeVariable | .head _ | .typeName _ =>
    if node.kind = .identifier then some ⟨.bind, node.span⟩ else none
  | .bareCallee _ =>
    if node.kind = .identifier ∨ node.kind = .operator then some ⟨.bind, node.span⟩ else none
  | .declared _ => some ⟨.bind, node.span⟩
  | _ => none

def assigned (kind : DefinitionKind) (parent : Node) : Nat → Option Place
  | 0 => some (if parent.headsFunction then .head .function else .target kind)
  | 2 => some .value
  | _ => none

def valueInside (parent : Node) (index : Nat) (child : Node) : Option Place :=
  match parent.kind with
  | .exportStatement => none
  | .quoteExpression | .quoteStatement => some .quoted
  | .assignment => assigned .variableName parent index
  | .compoundAssignment => if index = 1 then none else some .value
  | .keywordArgument => if index = 0 ∧ child.kind = .identifier then none else some .value
  | .fieldExpression => if index = 0 ∨ child.kind = .interpolation then some .value else none
  | .functionDefinition => some (if index = 0 then .signature .function else .value)
  | .macroDefinition => some (if index = 0 then .signature .macroBody else .value)
  | .arrowFunction | .doClause => some (if index = 0 then .parameter else .value)
  | .whereExpression => some (if index = 0 then .value else .typeVariable)
  | .letStatement => some (if index = 0 then .bindings else .value)
  | .forStatement => some (if child.kind = .forBinding then .loop else .value)
  | .comprehension | .generator =>
    some (if index ≠ 0 ∧ child.kind = .forClause then .clause else .value)
  | .tryStatement => some (if child.kind = .catchClause then .handler else .value)
  | .structDefinition => if index = 0 then some (.typeHead .structName) else none
  | .abstractDefinition => if index = 0 then some (.typeHead .abstractTypeName) else none
  | .primitiveDefinition => if index = 0 then some (.typeHead .primitiveTypeName) else none
  | .moduleDefinition => if index = 0 then some (.declared .moduleName) else none
  | .importStatement | .usingStatement =>
    some (if child.kind = .selectedImport then .selected else .imported)
  | .constStatement => some (if child.kind = .assignment then .constant else .value)
  | .globalStatement =>
    if child.kind = .assignment ∨ child.kind = .compoundAssignment then some .value else none
  | .localStatement => some .parameter
  | _ => some .value

/-- The place of a child of a node that has taken its own place; none if it is not looked at. -/
def inside (place : Place) (parent : Node) (index : Nat) (child : Node) : Option Place :=
  match place with
  | .value => valueInside parent index child
  | .quoted => some (if parent.kind = .interpolation then .value else .quoted)
  | .target kind =>
    match parent.kind with
    | .typedExpression => some (if index = 0 then .target kind else .value)
    | .splatExpression | .curlyExpression => if index = 0 then some (.target kind) else none
    | _ => some (.target kind)
  | .constant => assigned .constantName parent index
  | .parameter =>
    match parent.kind with
    | .typedExpression | .keywordArgument => some (if index = 0 then .parameter else .value)
    | .assignment =>
      if index = 1 then none else some (if index = 0 then .parameter else .value)
    | .splatExpression => if index = 0 then some .parameter else none
    | _ => some .parameter
  | .typeVariable =>
    match parent.kind with
    | .binaryExpression =>
      if index = 1 then none else some (if index = 0 then .typeVariable else .value)
    | _ => some .typeVariable
  | .signature scope => some (.head scope)
  | .head scope =>
    match parent.kind with
    | .whereExpression => some (if index = 0 then .head scope else .typeVariable)
    | .typedExpression => some (if index = 0 then .head scope else .value)
    | _ =>
      match index with
      | 0 => some (.callee scope)
      | 1 => some .parameter
      | _ => none
  | .callee scope => some (if index = 0 then .bareCallee scope else .typeVariable)
  | .bareCallee _ => none
  | .bindings => some .parameter
  | .loop => some (if index = 0 then .parameter else .value)
  | .clause => some .loop
  | .handler => some (if child.kind = .identifier then .parameter else .value)
  | .typeHead kind => some (.typeName kind)
  | .typeName kind =>
    match parent.kind with
    | .curlyExpression | .binaryExpression => if index = 0 then some (.typeName kind) else none
    | _ => none
  | .declared _ => none
  | .imported =>
    match parent.kind with
    | .importPath =>
      if index + 1 = parent.children.length then some (.declared .importedName) else none
    | .importAlias => if index = 1 then some (.declared .importedName) else none
    | _ => none
  | .selected => if index = 0 then none else some .imported

def Fits (kind : Kind) : Place → Prop
  | .constant => kind = .assignment
  | .signature _ => kind = .signature
  | .bindings => kind = .letBindings
  | .loop => kind = .forBinding
  | .clause => kind = .forClause
  | .handler => kind = .catchClause
  | .typeHead _ => kind = .typeHead
  | .declared _ => kind.isImportable = true
  | _ => True

def effects : Place → Reading → List Effect
  | .value, node => node.roles.value
  | .quoted, node => node.roles.quoted
  | .target kind, node => node.roles.target kind
  | .constant, node => Reading.assignment .constantName node.children
  | .parameter, node => node.roles.parameter
  | .typeVariable, node => node.roles.typeVariable
  | .signature scope, node =>
    node.children.flatMap fun head => Reading.callable scope head.signature []
  | .head scope, node => Reading.callable scope node.signature []
  | .callee scope, node => Reading.callable scope (Reading.Signature.ofCall [node]) []
  | .bareCallee scope, node =>
    if node.kind = .parenthesizedExpression then node.roles.parameter
    else Reading.calleeEffects scope node
  | .bindings, node => Reading.parameters node.children
  | .loop, node => Reading.iterable node ++ Reading.loopNames node
  | .clause, node => Reading.laterBindings node.children
  | .handler, node => [Reading.tryPart node]
  | .typeHead kind, node => Reading.typeDefinition kind [node]
  | .typeName kind, node => node.typeName?.toList.map fun name => .define kind name.span
  | .declared kind, node => [.define kind node.span]
  | .imported, node => Reading.importItem node
  | .selected, node => (node.children.drop 1).flatMap Reading.importItem

end Place

namespace Node

mutual

def mentions (site : Site) : Node → Place → Nat
  | ⟨kind, span, children⟩, place =>
    ((place.settle kind).own ⟨kind, span, children⟩).elim 0 site.tally +
      mentionsAll site (place.settle kind) ⟨kind, span, children⟩ 0 children

def mentionsAll (site : Site) (place : Place) (parent : Node) (index : Nat) : List Node → Nat
  | [] => 0
  | child :: rest =>
    ((place.inside parent index child).elim 0 fun inner => mentions site child inner) +
      mentionsAll site place parent (index + 1) rest

end

end Node

section Fitting

variable {place inner : Place} {parent child : Node} {index : Nat}

theorem Place.settle_fits {kind : Kind} (h : place.Fits kind) : (place.settle kind).Fits kind := by
  have parameter : (asParameter kind).Fits kind := by
    unfold asParameter
    split <;> trivial
  have bareCallee (scope : ScopeKind) : (asBareCallee scope kind).Fits kind := by
    unfold asBareCallee
    split <;> trivial
  cases place with
  | target assigned =>
    simp only [settle, asTarget]
    split <;> trivial
  | parameter => exact parameter
  | typeVariable =>
    simp only [settle, asTypeVariable]
    split <;> trivial
  | head scope =>
    simp only [settle, asHead]
    split <;> trivial
  | callee scope =>
    simp only [settle, asCallee]
    split
    all_goals first
      | trivial
      | exact bareCallee scope
  | bareCallee scope => exact bareCallee scope
  | _ => exact h

theorem Place.assigned_fits {kind : DefinitionKind} {other : Kind}
    (h : assigned kind parent index = some inner) : inner.Fits other := by
  unfold assigned at h
  split at h
  · cases h
    split <;> trivial
  · cases h
    trivial
  · cases h

/-- What holds of both of two places holds of the one that is chosen. -/
theorem Place.of_choice {P : Place → Prop} {a b : Place} {p : Prop} [Decidable p]
    (h : some (if p then a else b) = some inner) (ha : p → P a) (hb : P b) : P inner := by
  cases h
  split
  · next hp => exact ha hp
  · exact hb

/-- What holds of a place under a condition holds of it where it is taken on that condition. -/
theorem Place.of_guard {P : Place → Prop} {a : Place} {p : Prop} [Decidable p]
    (h : (if p then some a else none) = some inner) (ha : p → P a) : P inner := by
  obtain ⟨hp, same⟩ := Option.ite_none_right_eq_some.mp h
  cases same
  exact ha hp

theorem Place.valueInside_fits (formed : parent.Formed) (hc : parent.children[index]? = some child)
    (h : valueInside parent index child = some inner) : inner.Fits child.kind := by
  have shape := formed.shape
  obtain ⟨kind, span, children⟩ := parent
  have front {first : Node} {rest : List Node} (same : children = first :: rest)
      (zero : index = 0) : child = first := by
    subst same zero
    exact (Option.some.inj hc).symm
  cases kind with
  | exportStatement => cases h
  | assignment => exact assigned_fits h
  | compoundAssignment | keywordArgument =>
    obtain ⟨_, same⟩ := Option.ite_none_left_eq_some.mp h
    cases same
    trivial
  | fieldExpression | globalStatement => exact of_guard h fun _ => trivial
  | functionDefinition | macroDefinition =>
    obtain ⟨head, body, rfl, hs, _⟩ := shape
    refine of_choice h ?_ trivial
    intro zero
    rw [front rfl zero]
    exact hs
  | arrowFunction | doClause | whereExpression | importStatement | usingStatement =>
    exact of_choice h (fun _ => trivial) trivial
  | letStatement =>
    obtain ⟨bindings, body, rfl, hl, _⟩ := shape
    refine of_choice h ?_ trivial
    intro zero
    rw [front rfl zero]
    exact hl
  | forStatement | tryStatement | constStatement => exact of_choice h (fun hk => hk) trivial
  | comprehension | generator => exact of_choice h (fun hk => hk.2) trivial
  | structDefinition =>
    obtain ⟨head, body, rfl, hh, _⟩ := shape
    refine of_guard h ?_
    intro zero
    rw [front rfl zero]
    exact hh
  | abstractDefinition | primitiveDefinition =>
    obtain ⟨head, rest, rfl, hh⟩ := shape
    refine of_guard h ?_
    intro zero
    rw [front rfl zero]
    exact hh
  | moduleDefinition =>
    obtain ⟨name, body, rfl, hn, _⟩ := shape
    refine of_guard h ?_
    intro zero
    rw [front rfl zero]
    simp [Fits, hn, Kind.isImportable]
  | _ =>
    cases h
    trivial

/-- A child is put in a place that suits it. -/
theorem Place.inside_fits (formed : parent.Formed) (fits : place.Fits parent.kind)
    (hc : parent.children[index]? = some child) (h : place.inside parent index child = some inner) :
    inner.Fits child.kind := by
  have shape := formed.shape
  cases place with
  | value => exact valueInside_fits formed hc h
  | constant => exact assigned_fits h
  | clause =>
    cases h
    have kind : parent.kind = .forClause := fits
    rw [kind] at shape
    exact shape child (List.mem_of_getElem? hc)
  | imported =>
    simp only [inside] at h
    split at h
    · next kind =>
      refine of_guard h ?_
      intro _
      rw [kind] at shape
      exact shape child (List.mem_of_getElem? hc)
    · next kind =>
      refine of_guard h ?_
      intro one
      rw [kind] at shape
      obtain ⟨path, name, children, importable⟩ := shape
      rw [children, one] at hc
      cases hc
      exact importable
    · cases h
  | bareCallee scope => cases h
  | declared kind => cases h
  | _ =>
    simp only [inside] at h
    repeat' split at h
    all_goals first
      | cases h
        done
      | cases h
        trivial

end Fitting

end CellBindings
