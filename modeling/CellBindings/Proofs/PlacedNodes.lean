import CellBindings.Proofs.PlacedEffects

/-!
Nodes in every place. As targets, parameters, type variables, heads of functions and the like,
nodes mention names as often as the table of places says, and so do formed trees as a whole.
-/

namespace CellBindings

open Effect (countAll)
open Node (mentionsAll MentionsMatch)

section Places

/-! Nodes in places other than that of a value. -/

variable {site : Site} {kind : Kind} {span : Span} {children : List Node}

theorem reading_eq (kind : Kind) (span : Span) (children : List Node) :
    Node.reading ⟨kind, span, children⟩ = .build kind span (children.map Node.reading) := by
  rw [Node.reading, readings_eq]

theorem mentions_quoted (matched : ∀ child ∈ children, child.MentionsMatch site) :
    countAll site (Reading.quotedEffects kind (children.map Node.reading)) =
      Node.mentions site ⟨kind, span, children⟩ .quoted := by
  rw [Node.mentions_eq]
  simp only [Place.settle, Place.own, Option.elim_none, Nat.zero_add]
  unfold Reading.quotedEffects
  split
  · next interpolation =>
    exact countAll_values matched fun _ _ _ _ => by simp [Place.inside, interpolation]
  · next other =>
    exact @countAll_uniform site .quoted .quoted _ 0 _ matched (fun _ _ => trivial)
      fun _ _ _ _ => by simp [Place.inside, other]

theorem mentions_target (assigned : DefinitionKind) (shape : kind.Shapes children)
    (matched : ∀ child ∈ children, child.MentionsMatch site) {value : List Effect}
    (hv : countAll site value = Node.mentions site ⟨kind, span, children⟩ .value) :
    countAll site (Reading.targetEffects kind span (children.map Node.reading) value assigned) =
      Node.mentions site ⟨kind, span, children⟩ (.target assigned) := by
  have all (h : ∀ i child, Place.inside (.target assigned) ⟨kind, span, children⟩ i child =
      some (.target assigned)) := @countAll_uniform site (.target assigned) (.target assigned)
    ⟨kind, span, children⟩ 0 children matched (fun _ _ => trivial) fun i child _ _ => h i child
  cases kind with
  | identifier =>
    obtain rfl : children = [] := shape
    simp [Reading.targetEffects, Node.mentions_eq, Place.settle, Place.asTarget, Place.own]
  | typedExpression =>
    obtain ⟨value, type, rfl⟩ := shape
    have first := matched value (by simp) (.target assigned) trivial
    have second := matched type (by simp) .value trivial
    simp only [Place.effects] at first second
    simp [Reading.targetEffects, Reading.values, Node.mentions_eq, Place.settle, Place.asTarget,
      Place.own, Place.inside, first, second]
  | tupleExpression | parenthesizedExpression | keywordArguments =>
    rw [Node.mentions_eq]
    exact (all fun _ _ => rfl).trans (Nat.zero_add _).symm
  | splatExpression =>
    obtain ⟨part, rfl⟩ := shape
    have first := matched part (by simp) (.target assigned) trivial
    simp only [Place.effects] at first
    simp [Reading.targetEffects, Node.mentions_eq, Place.settle, Place.asTarget, Place.own,
      Place.inside, first]
  | curlyExpression =>
    rw [Node.mentions_eq]
    cases children with
    | nil => simp [Reading.targetEffects, Place.settle, Place.asTarget, Place.own]
    | cons base arguments =>
      have first := matched base (by simp) (.target assigned) trivial
      have rest : mentionsAll site (.target assigned)
          ⟨.curlyExpression, span, base :: arguments⟩ 1 arguments = 0 := by
        apply mentionsAll_eq_zero
        intro i child hi _
        simp [Place.inside, Nat.ne_of_gt hi]
      simp only [Place.effects] at first
      simp [Reading.targetEffects, Place.settle, Place.asTarget, Place.own, Place.inside, first, rest]
  | _ => exact hv.trans (Node.mentions_congr rfl)

theorem mentions_parameter (shape : kind.Shapes children)
    (matched : ∀ child ∈ children, child.MentionsMatch site) {value : List Effect}
    (hv : countAll site value = Node.mentions site ⟨kind, span, children⟩ .value) :
    countAll site (Reading.parameterEffects kind span (children.map Node.reading) value) =
      Node.mentions site ⟨kind, span, children⟩ .parameter := by
  have all (h : ∀ i child, Place.inside .parameter ⟨kind, span, children⟩ i child =
      some .parameter) := @countAll_parameters site .parameter ⟨kind, span, children⟩ 0 children
    matched fun i child _ _ => h i child
  cases kind with
  | identifier =>
    obtain rfl : children = [] := shape
    simp [Reading.parameterEffects, Node.mentions_eq, Place.settle, Place.asParameter, Place.own]
  | typedExpression =>
    obtain ⟨value, type, rfl⟩ := shape
    have first := matched value (by simp) .parameter trivial
    have second := matched type (by simp) .value trivial
    simp only [Place.effects] at first second
    simp [Reading.parameterEffects, Reading.parameters, Reading.values, Node.mentions_eq,
      Place.settle, Place.asParameter, Place.own, Place.inside, first, second]
  | keywordArgument =>
    rw [Node.mentions_eq]
    cases children with
    | nil =>
      simp [Reading.parameterEffects, Reading.parameters, Reading.values, Place.settle,
        Place.asParameter, Place.own]
    | cons label values =>
      have first := matched label (by simp) .parameter trivial
      have inside : ∀ i child, 1 ≤ i → child ∈ values →
          Place.inside .parameter ⟨.keywordArgument, span, label :: values⟩ i child =
            some .value := by
        intro i child hi _
        simp [Place.inside, Nat.ne_of_gt hi]
      have behind := countAll_values (fun child hc => matched child (by simp [hc])) inside
      simp only [Place.effects] at first
      simp [Reading.parameterEffects, Reading.parameters, Place.settle, Place.asParameter,
        Place.own, Place.inside, first, behind, Nat.add_comm]
  | assignment =>
    obtain ⟨left, operator, right, rfl, _⟩ := shape
    have first := matched left (by simp) .parameter trivial
    have third := matched right (by simp) .value trivial
    simp only [Place.effects] at first third
    simp [Reading.parameterEffects, Reading.parameters, Reading.values, Node.mentions_eq,
      Place.settle, Place.asParameter, Place.own, Place.inside, first, third, Nat.add_comm]
  | argumentList | keywordArguments | parameterList | tupleExpression | parenthesizedExpression =>
    rw [Node.mentions_eq]
    exact (all fun _ _ => rfl).trans (Nat.zero_add _).symm
  | splatExpression =>
    obtain ⟨part, rfl⟩ := shape
    have first := matched part (by simp) .parameter trivial
    simp only [Place.effects] at first
    simp [Reading.parameterEffects, Reading.parameters, Node.mentions_eq, Place.settle,
      Place.asParameter, Place.own, Place.inside, first]
  | _ => exact hv.trans (Node.mentions_congr rfl)

theorem mentions_typeVariable (shape : kind.Shapes children)
    (matched : ∀ child ∈ children, child.MentionsMatch site) {value : List Effect}
    (hv : countAll site value = Node.mentions site ⟨kind, span, children⟩ .value) :
    countAll site (Reading.typeVariableEffects kind span (children.map Node.reading) value) =
      Node.mentions site ⟨kind, span, children⟩ .typeVariable := by
  cases kind with
  | identifier =>
    obtain rfl : children = [] := shape
    simp [Reading.typeVariableEffects, Node.mentions_eq, Place.settle, Place.asTypeVariable,
      Place.own]
  | bracesExpression =>
    rw [Node.mentions_eq]
    exact (countAll_typeVariables matched fun _ _ _ _ => rfl).trans (Nat.zero_add _).symm
  | binaryExpression =>
    obtain ⟨left, operator, right, rfl, _⟩ := shape
    have first := matched left (by simp) .typeVariable trivial
    have third := matched right (by simp) .value trivial
    simp only [Place.effects] at first third
    simp [Reading.typeVariableEffects, Reading.values, Node.mentions_eq, Place.settle,
      Place.asTypeVariable, Place.own, Place.inside, first, third]
  | _ => exact hv.trans (Node.mentions_congr rfl)

/-- The parts of a head, each counted for itself. -/
theorem countAll_head (scope : ScopeKind) (parts : Reading.Signature) :
    countAll site (Reading.callable scope parts []) =
      countAll site (parts.name.toList.flatMap (Reading.calleeEffects scope)) +
        countAll site (parts.typeVariables.flatMap (·.roles.typeVariable)) +
        countAll site (Reading.parameters parts.functor.toList) +
        countAll site (Reading.parameters parts.parameters.toList) +
        countAll site (Reading.values parts.returnTypes) := by
  simp only [Reading.callable, countAll_append, countAll_cons, count_scoped, countAll_nil]
  omega

/-- The arguments of a call that heads a definition count apart from the callee. -/
theorem countAll_ofCall (scope : ScopeKind) (callee : Reading) (arguments : List Reading) :
    countAll site (Reading.callable scope (Reading.Signature.ofCall (callee :: arguments)) []) =
      countAll site (Reading.callable scope (Reading.Signature.ofCall [callee]) []) +
        countAll site (Reading.parameters arguments.head?.toList) := by
  have parts (named : Option Reading) (types : List Reading) (functor : Bool) :
      countAll site (Reading.callable scope
        (if functor then ⟨none, named, arguments.head?, types, []⟩
        else ⟨named, none, arguments.head?, types, []⟩) []) =
      countAll site (Reading.callable scope
        (if functor then ⟨none, named, none, types, []⟩ else ⟨named, none, none, types, []⟩) []) +
        countAll site (Reading.parameters arguments.head?.toList) := by
    cases functor with
    | true => simp [countAll_head, Reading.parameters, Reading.values]
    | false => simp [countAll_head, Reading.parameters, Reading.values]
  exact parts _ _ _

theorem mentions_callee (scope : ScopeKind) {first : Node}
    (matched : ∀ child ∈ first.children, child.MentionsMatch site)
    (bare : countAll site (Place.effects (.bareCallee scope) first.reading) =
      first.mentions site (.bareCallee scope)) :
    countAll site (Reading.callable scope (Reading.Signature.ofCall [first.reading]) []) =
      first.mentions site (.callee scope) := by
  have named {r : Reading} {types : List Reading} :
      countAll site (Reading.callable scope
        (if (some r).any (·.kind == .parenthesizedExpression) then
          ⟨none, some r, none, types, []⟩
        else ⟨some r, none, none, types, []⟩) []) =
      countAll site (Place.effects (.bareCallee scope) r) +
        countAll site (types.flatMap (·.roles.typeVariable)) := by
    by_cases functor : r.kind = .parenthesizedExpression
    · simp [countAll_head, Place.effects, functor, Reading.parameters, Reading.values, Nat.add_comm]
    · simp [countAll_head, Place.effects, functor, Reading.parameters, Reading.values]
  by_cases curly : first.kind = .curlyExpression
  · have settled : Place.settle first.kind (.callee scope) = .callee scope := by rw [curly]; rfl
    rw [Node.mentions_eq, settled]
    simp only [Reading.Signature.ofCall, Node.reading_kind, curly, if_true, Node.reading_children]
    cases hc : first.children with
    | nil => simp [countAll_head, Reading.parameters, Reading.values, Place.own]
    | cons callee types =>
      rw [hc] at matched
      have inside : ∀ i child, 1 ≤ i → child ∈ types →
          Place.inside (.callee scope) first i child = some .typeVariable := by
        intro i child hi _
        simp [Place.inside, Nat.ne_of_gt hi]
      have binders := countAll_typeVariables (fun child hm => matched child (by simp [hm])) inside
      have callee := matched callee (by simp) (.bareCallee scope) trivial
      simp only [List.map_cons, List.head?_cons, List.drop_succ_cons, List.drop_zero, List.head?_nil]
      rw [named, callee, binders]
      simp [Place.own, Place.inside]
  · have settled : Place.settle first.kind (.callee scope) =
        Place.settle first.kind (.bareCallee scope) := by
      simp only [Place.settle, Place.asCallee]
    rw [Node.mentions_congr settled, ← bare]
    simp only [Reading.Signature.ofCall, Node.reading_kind, curly, if_false, List.head?_nil]
    rw [named]
    simp

/-- The type variables behind `where` count apart from the head before it. -/
theorem mentions_whereHead (scope : ScopeKind) {inner : Node} {clauses : List Node}
    (matched : ∀ child ∈ inner :: clauses, child.MentionsMatch site) :
    countAll site (Reading.callable scope
        (Node.reading ⟨.whereExpression, span, inner :: clauses⟩).signature []) =
      Node.mentions site ⟨.whereExpression, span, inner :: clauses⟩ (.head scope) := by
  have parts : (Node.reading ⟨.whereExpression, span, inner :: clauses⟩).signature =
      { inner.reading.signature with
        typeVariables := clauses.map Node.reading ++ inner.reading.signature.typeVariables } := by
    simp [reading_eq, Reading.build, Reading.signature]
  have places : Node.mentions site ⟨.whereExpression, span, inner :: clauses⟩ (.head scope) =
      inner.mentions site (.head scope) +
        mentionsAll site (.head scope) ⟨.whereExpression, span, inner :: clauses⟩ 1 clauses := by
    rw [Node.mentions_eq]
    simp [Place.settle, Place.asHead, Place.own, Place.inside]
  have inside : ∀ i child, 1 ≤ i → child ∈ clauses →
      Place.inside (.head scope) ⟨.whereExpression, span, inner :: clauses⟩ i child =
        some .typeVariable := by
    intro i child hi _
    simp [Place.inside, Nat.ne_of_gt hi]
  have binders := countAll_typeVariables (fun child hc => matched child (by simp [hc])) inside
  have head := matched inner (by simp) (.head scope) trivial
  rw [parts, places, ← binders, ← head]
  simp only [Place.effects, countAll_head, List.flatMap_append, countAll_append]
  omega

/-- The return type counts apart from the head before it. -/
theorem mentions_typedHead (scope : ScopeKind) {inner type : Node} (head : inner.MentionsMatch site)
    (value : type.MentionsMatch site) :
    countAll site (Reading.callable scope
        (Node.reading ⟨.typedExpression, span, [inner, type]⟩).signature []) =
      Node.mentions site ⟨.typedExpression, span, [inner, type]⟩ (.head scope) := by
  have parts : (Node.reading ⟨.typedExpression, span, [inner, type]⟩).signature =
      { inner.reading.signature with
        returnTypes := type.reading :: inner.reading.signature.returnTypes } := by
    simp [reading_eq, Reading.build, Reading.signature]
  have places : Node.mentions site ⟨.typedExpression, span, [inner, type]⟩ (.head scope) =
      inner.mentions site (.head scope) + type.mentions site .value := by
    rw [Node.mentions_eq]
    simp [Place.settle, Place.asHead, Place.own, Place.inside]
  have value := value .value trivial
  have head := head (.head scope) trivial
  rw [parts, places, ← value, ← head]
  simp only [Place.effects, countAll_head, Reading.values, List.flatMap_cons, countAll_append]
  omega

/-- Of a call that heads a definition the callee and the parameters count, and nothing behind. -/
theorem mentions_callHead (scope : ScopeKind)
    (matched : ∀ child ∈ children, child.MentionsMatch site) :
    countAll site (Reading.callable scope
        (Node.reading ⟨.callExpression, span, children⟩).signature []) =
      Node.mentions site ⟨.callExpression, span, children⟩ (.head scope) := by
  have parts : (Node.reading ⟨.callExpression, span, children⟩).signature =
      Reading.Signature.ofCall (children.map Node.reading) := by
    simp [reading_eq, Reading.build, Reading.signature]
  rw [parts, Node.mentions_eq]
  cases children with
  | nil =>
    simp [Reading.Signature.ofCall, countAll_head, Reading.parameters, Reading.values,
      Place.settle, Place.asHead, Place.own]
  | cons callee arguments =>
    have first := matched callee (by simp) (.callee scope) trivial
    simp only [Place.effects] at first
    rw [List.map_cons, countAll_ofCall, first]
    cases arguments with
    | nil => simp [Reading.parameters, Place.settle, Place.asHead, Place.own, Place.inside]
    | cons list rest =>
      have second := matched list (by simp) .parameter trivial
      have none : mentionsAll site (.head scope)
          ⟨.callExpression, span, callee :: list :: rest⟩ 2 rest = 0 := by
        apply mentionsAll_eq_zero
        intro i child hi _
        obtain ⟨j, rfl⟩ : ∃ j, i = j + 2 := ⟨i - 2, by omega⟩
        rfl
      simp only [Place.effects] at second
      simp [Reading.parameters, Place.settle, Place.asHead, Place.own, Place.inside, second, none]

/-- The parts of a head count as its places say; any other head is a list of parameters. -/
theorem mentions_head (scope : ScopeKind) (formed : Node.Formed ⟨kind, span, children⟩)
    (matched : ∀ child ∈ children, child.MentionsMatch site)
    (hp : countAll site (Node.reading ⟨kind, span, children⟩).roles.parameter =
      Node.mentions site ⟨kind, span, children⟩ .parameter) :
    countAll site (Reading.callable scope (Node.reading ⟨kind, span, children⟩).signature []) =
      Node.mentions site ⟨kind, span, children⟩ (.head scope) := by
  have shape : kind.Shapes children := formed.shape
  by_cases isWhere : kind = .whereExpression
  · subst isWhere
    obtain ⟨inner, clauses, rfl⟩ := shape
    exact mentions_whereHead scope matched
  by_cases isTyped : kind = .typedExpression
  · subst isTyped
    obtain ⟨inner, type, rfl⟩ := shape
    exact mentions_typedHead scope (matched inner (by simp)) (matched type (by simp))
  by_cases isCall : kind = .callExpression
  · subst isCall
    exact mentions_callHead scope matched
  by_cases isName : kind = .identifier
  · subst isName
    obtain rfl : children = [] := shape
    simp [reading_eq, Reading.build, Reading.signature, countAll_head, Reading.calleeEffects,
      Reading.parameters, Reading.values, Node.mentions_eq, Place.settle, Place.asHead, Place.own]
  · have bare := @signature_bare (Node.reading ⟨kind, span, children⟩) (by simpa using isWhere)
      (by simpa using isTyped) (by simpa using isCall) (by simpa using isName)
    have settled : Place.settle kind (.head scope) = Place.settle kind .parameter := by
      simp only [Place.settle, Place.asHead]
    rw [bare, Node.mentions_congr settled, ← hp]
    simp [countAll_head, Reading.parameters, Reading.values]

theorem mentions_bareCallee (scope : ScopeKind) (formed : Node.Formed ⟨kind, span, children⟩)
    (hv : countAll site (Node.reading ⟨kind, span, children⟩).roles.value =
      Node.mentions site ⟨kind, span, children⟩ .value)
    (hp : countAll site (Node.reading ⟨kind, span, children⟩).roles.parameter =
      Node.mentions site ⟨kind, span, children⟩ .parameter) :
    countAll site (Place.effects (.bareCallee scope) (Node.reading ⟨kind, span, children⟩)) =
      Node.mentions site ⟨kind, span, children⟩ (.bareCallee scope) := by
  have shape : kind.Shapes children := formed.shape
  by_cases isField : kind = .fieldExpression
  · subst isField
    simp only [Place.effects, Node.reading_kind, Reading.calleeEffects]
    exact hv.trans (Node.mentions_congr rfl)
  by_cases isFunctor : kind = .parenthesizedExpression
  · subst isFunctor
    simp only [Place.effects, Node.reading_kind]
    exact hp.trans (Node.mentions_congr rfl)
  have settled : Place.settle kind (.bareCallee scope) = .bareCallee scope := by
    simp only [Place.settle, Place.asBareCallee]
  have unread : mentionsAll site (.bareCallee scope) ⟨kind, span, children⟩ 0 children = 0 :=
    mentionsAll_eq_zero fun _ _ _ _ => rfl
  rw [Node.mentions_eq, settled, unread]
  by_cases isName : kind = .identifier ∨ kind = .operator
  · rcases isName with rfl | rfl
    · simp [Place.effects, Reading.calleeEffects, Place.own]
    · simp [Place.effects, Reading.calleeEffects, Place.own]
  · have none : Reading.calleeEffects scope (Node.reading ⟨kind, span, children⟩) = [] := by
      unfold Reading.calleeEffects
      split <;> simp_all
    simp [Place.effects, Place.own, isFunctor, isName, none]

/-- A loop binding, with its iterable before or behind its names. -/
theorem mentions_loop {first second : Node} (names : first.MentionsMatch site)
    (iterable : second.MentionsMatch site) :
    countAll site (Place.effects .loop (Node.reading ⟨.forBinding, span, [first, second]⟩)) =
      Node.mentions site ⟨.forBinding, span, [first, second]⟩ .loop := by
  have names := names .parameter trivial
  have iterable := iterable .value trivial
  simp only [Place.effects] at names iterable
  simp [Place.effects, Reading.iterable, Reading.loopNames, Reading.parameters, Reading.values,
    Node.mentions_eq, Place.settle, Place.own, Place.inside, names, iterable, Nat.add_comm]

theorem reading_parameter_name (span : Span) (children : List Node) :
    (Node.reading ⟨.identifier, span, children⟩).roles.parameter = [.bind span] := by
  rw [reading_eq]
  rfl

theorem mentions_handler (matched : ∀ child ∈ children, child.MentionsMatch site) :
    countAll site (Place.effects .handler (Node.reading ⟨.catchClause, span, children⟩)) =
      Node.mentions site ⟨.catchClause, span, children⟩ .handler := by
  rw [Node.mentions_eq]
  simp only [Place.effects, Reading.tryPart, Node.reading_kind, if_true, Node.reading_children,
    countAll_cons, count_scoped, countAll_nil, Nat.add_zero, Place.settle, Place.own,
    Option.elim_none, Nat.zero_add]
  refine countAll_flatMap ?_
  intro i child _ hc
  by_cases name : child.kind = .identifier
  · have bound := matched child hc .parameter trivial
    obtain ⟨kind, span, children⟩ := child
    obtain rfl : kind = .identifier := name
    simpa [Place.inside, Place.effects, reading_parameter_name] using bound
  · simpa [Place.inside, name, Place.effects] using matched child hc .value trivial

theorem mentions_typeHead (defined : DefinitionKind) {first : Node}
    (name : first.MentionsMatch site) :
    countAll site (Place.effects (.typeHead defined) (Node.reading ⟨.typeHead, span, [first]⟩)) =
      Node.mentions site ⟨.typeHead, span, [first]⟩ (.typeHead defined) := by
  have name := name (.typeName defined) trivial
  simpa [Place.effects, Reading.typeDefinition, Node.mentions_eq, Place.settle, Place.own,
    Place.inside] using name

theorem typeName?_nested {r inner : Reading} {rest : List Reading}
    (h : r.kind = .curlyExpression ∨ r.kind = .binaryExpression) (hc : r.children = inner :: rest) :
    r.typeName? = inner.typeName? := by
  obtain ⟨kind, span, children, roles⟩ := r
  obtain rfl : children = inner :: rest := hc
  rcases h with h | h
  · obtain rfl : kind = .curlyExpression := h
    rw [Reading.typeName?]
  · obtain rfl : kind = .binaryExpression := h
    rw [Reading.typeName?]

theorem typeName?_none {r : Reading} (noName : r.kind ≠ .identifier)
    (h : r.kind = .curlyExpression ∨ r.kind = .binaryExpression → r.children = []) :
    r.typeName? = none := by
  obtain ⟨kind, span, children, roles⟩ := r
  unfold Reading.typeName?
  split <;> simp_all

theorem mentions_typeName (defined : DefinitionKind) (shape : kind.Shapes children)
    (matched : ∀ child ∈ children, child.MentionsMatch site) :
    countAll site (Place.effects (.typeName defined) (Node.reading ⟨kind, span, children⟩)) =
      Node.mentions site ⟨kind, span, children⟩ (.typeName defined) := by
  rw [Node.mentions_eq]
  by_cases isName : kind = .identifier
  · subst isName
    obtain rfl : children = [] := shape
    simp [Place.effects, reading_eq, Reading.build, Reading.typeName?, Place.settle, Place.own]
  by_cases nested : kind = .curlyExpression ∨ kind = .binaryExpression
  · have inside (i : Nat) (child : Node) :
        Place.inside (.typeName defined) ⟨kind, span, children⟩ i child =
          if i = 0 then some (.typeName defined) else none := by
      rcases nested with rfl | rfl <;> rfl
    cases children with
    | nil =>
      have none := @typeName?_none (Node.reading ⟨kind, span, []⟩) (by simpa using isName) (by simp)
      simp [Place.effects, none, Place.settle, Place.own, isName]
    | cons inner rest =>
      have name := matched inner (by simp) (.typeName defined) trivial
      have same := @typeName?_nested (Node.reading ⟨kind, span, inner :: rest⟩) inner.reading
        (rest.map Node.reading) (by simpa using nested) (by simp)
      have unread : mentionsAll site (.typeName defined) ⟨kind, span, inner :: rest⟩ 1 rest = 0 := by
        apply mentionsAll_eq_zero
        intro i child hi _
        rw [inside, if_neg (Nat.ne_of_gt hi)]
      simp only [Place.effects] at name
      simp [Place.effects, same, Place.settle, Place.own, isName, inside, unread, name]
  · have none := @typeName?_none (Node.reading ⟨kind, span, children⟩) (by simpa using isName)
      (by simp [nested])
    have unread : mentionsAll site (.typeName defined) ⟨kind, span, children⟩ 0 children = 0 := by
      apply mentionsAll_eq_zero
      intro i child _ _
      simp only [Place.inside]
      split <;> simp_all
    simp [Place.effects, none, Place.settle, Place.own, isName, unread]

/-- Of the parts of an import only the last name is defined. -/
theorem mentions_imported (shape : kind.Shapes children)
    (matched : ∀ child ∈ children, child.MentionsMatch site) :
    countAll site (Place.effects .imported (Node.reading ⟨kind, span, children⟩)) =
      Node.mentions site ⟨kind, span, children⟩ .imported := by
  rw [Node.mentions_eq]
  by_cases isPath : kind = .importPath
  · subst isPath
    rcases List.eq_nil_or_concat children with rfl | ⟨before, name, rfl⟩
    · simp [Place.effects, Reading.importItem, Place.settle, Place.own]
    · have named := matched name (by simp) (.declared .importedName) (shape name (by simp))
      have unread : mentionsAll site .imported ⟨.importPath, span, before ++ [name]⟩ 0 before = 0 := by
        apply mentionsAll_eq_zero
        intro i child _ high
        have later : i ≠ before.length := by omega
        simp [Place.inside, later]
      simp only [Place.effects] at named
      simpa [Place.effects, Reading.importItem, Place.settle, Place.own, mentionsAll_append, unread,
        Place.inside] using named
  by_cases isAlias : kind = .importAlias
  · subst isAlias
    obtain ⟨path, name, rfl, hn⟩ := shape
    have named := matched name (by simp) (.declared .importedName) hn
    simpa [Place.effects, Reading.importItem, Place.settle, Place.own, Place.inside] using named
  · have unread : mentionsAll site .imported ⟨kind, span, children⟩ 0 children = 0 := by
      apply mentionsAll_eq_zero
      intro i child _ _
      simp only [Place.inside]
    simp [Place.effects, Reading.importItem, Place.settle, Place.own, unread]

theorem mentions_selected (matched : ∀ child ∈ children, child.MentionsMatch site) :
    countAll site (Place.effects .selected (Node.reading ⟨kind, span, children⟩)) =
      Node.mentions site ⟨kind, span, children⟩ .selected := by
  rw [Node.mentions_eq]
  cases children with
  | nil => simp [Place.effects, Place.settle, Place.own]
  | cons path items =>
    have inside : ∀ i child, 1 ≤ i → child ∈ items →
        Place.inside .selected ⟨kind, span, path :: items⟩ i child = some .imported := by
      intro i child hi _
      simp [Place.inside, Nat.ne_of_gt hi]
    have each := @countAll_uniform site .selected .imported ⟨kind, span, path :: items⟩ 1 items
      (fun child hc => matched child (by simp [hc])) (fun _ _ => trivial) inside
    simp only [Place.effects, Node.reading_children, List.map_cons, List.drop_succ_cons,
      List.drop_zero, Place.settle, Place.own, Option.elim_none, Nat.zero_add, mentionsAll_cons]
    exact each.trans (Nat.zero_add _).symm

end Places

/-- The effects of a formed tree mention every site as often as its places say. -/
theorem Node.Formed.mentionsMatch {node : Node} (h : node.Formed) (site : Site) :
    node.MentionsMatch site := by
  induction node using Node.induct with
  | node kind span children ih =>
    have matched : ∀ child ∈ children, child.MentionsMatch site :=
      fun child hc => ih child hc (h.child child hc)
    have shape : kind.Shapes children := h.shape
    have value : countAll site (Node.reading ⟨kind, span, children⟩).roles.value =
        Node.mentions site ⟨kind, span, children⟩ .value := by
      rw [reading_eq]
      exact mentions_value h matched
    have parameter : countAll site (Node.reading ⟨kind, span, children⟩).roles.parameter =
        Node.mentions site ⟨kind, span, children⟩ .parameter := by
      rw [reading_eq] at value ⊢
      exact mentions_parameter shape matched value
    have bareCallee (scope : ScopeKind) := mentions_bareCallee scope h value parameter
    intro place fits
    cases place with
    | value => exact value
    | quoted =>
      rw [reading_eq]
      exact mentions_quoted matched
    | target assigned =>
      rw [reading_eq] at value ⊢
      exact mentions_target assigned shape matched value
    | constant =>
      obtain rfl : kind = .assignment := fits
      obtain ⟨left, operator, right, rfl, _⟩ := shape
      rw [Node.mentions_eq]
      simp only [Place.effects, Node.reading_children, Place.settle, Place.own, Option.elim_none,
        Nat.zero_add]
      exact mentions_assignment .constantName (matched left (by simp)) (matched right (by simp))
        fun _ _ => rfl
    | parameter => exact parameter
    | typeVariable =>
      rw [reading_eq] at value ⊢
      exact mentions_typeVariable shape matched value
    | signature scope =>
      rw [Node.mentions_eq]
      simp only [Place.effects, Node.reading_children, Place.settle, Place.own, Option.elim_none,
        Nat.zero_add]
      exact @countAll_uniform site (.signature scope) (.head scope) _ 0 _ matched
        (fun _ _ => trivial) fun _ _ _ _ => rfl
    | head scope => exact mentions_head scope h matched parameter
    | callee scope =>
      exact @mentions_callee site scope ⟨kind, span, children⟩ matched (bareCallee scope)
    | bareCallee scope => exact bareCallee scope
    | bindings =>
      rw [Node.mentions_eq]
      simp only [Place.effects, Node.reading_children, Place.settle, Place.own, Option.elim_none,
        Nat.zero_add]
      exact countAll_parameters matched fun _ _ _ _ => rfl
    | loop =>
      obtain rfl : kind = .forBinding := fits
      obtain ⟨names, iterable, rfl⟩ := shape
      exact mentions_loop (matched names (by simp)) (matched iterable (by simp))
    | clause =>
      obtain rfl : kind = .forClause := fits
      rw [Node.mentions_eq]
      simp only [Place.effects, Node.reading_children, Place.settle, Place.own, Option.elim_none,
        Nat.zero_add]
      exact countAll_laterBindings matched shape fun _ _ _ _ => rfl
    | handler =>
      obtain rfl : kind = .catchClause := fits
      exact mentions_handler matched
    | typeHead defined =>
      obtain rfl : kind = .typeHead := fits
      obtain ⟨name, rfl⟩ := shape
      exact mentions_typeHead defined (matched name (by simp))
    | typeName defined => exact mentions_typeName defined shape matched
    | declared defined =>
      rw [Node.mentions_eq, mentionsAll_eq_zero fun _ _ _ _ => rfl]
      simp [Place.effects, Place.settle, Place.own]
    | imported => exact mentions_imported shape matched
    | selected => exact mentions_selected matched

end CellBindings
