import CellBindings.Proofs.NamePlaces

/-!
Effects counted by places. There is one lemma for each construct as a value: the effects it puts
together, in whatever order, mention a name as often as its children do in their places.
-/

namespace CellBindings

open Effect (count countAll)

section Counting

variable {site : Site}

@[simp] theorem count_use (span : Span) :
    count site (.use span) = site.tally ⟨.read, span⟩ := by rw [count]

@[simp] theorem count_assign (kind : DefinitionKind) (span : Span) :
    count site (.assign kind span) = site.tally ⟨.bind, span⟩ := by rw [count]

@[simp] theorem count_bind (span : Span) :
    count site (.bind span) = site.tally ⟨.bind, span⟩ := by rw [count]

@[simp] theorem count_define (kind : DefinitionKind) (span : Span) :
    count site (.define kind span) = site.tally ⟨.bind, span⟩ := by rw [count]

@[simp] theorem count_declareGlobal (span : Span) : count site (.declareGlobal span) = 0 := by
  rw [count]

@[simp] theorem count_scoped (scope : ScopeKind) (body : List Effect) :
    count site (.scoped scope body) = countAll site body := by rw [count]

theorem count_update (operator : Span) (target : Option Span) :
    count site (.update operator target) =
      target.elim 0 fun span => site.tally ⟨.update, span⟩ := by
  cases target with
  | none => rw [count, Option.elim_none]
  | some span => rw [count, Option.elim_some]

@[simp] theorem countAll_nil : countAll site [] = 0 := by rw [countAll]

@[simp] theorem countAll_cons (effect : Effect) (rest : List Effect) :
    countAll site (effect :: rest) = count site effect + countAll site rest := by rw [countAll]

@[simp] theorem countAll_append (effects more : List Effect) :
    countAll site (effects ++ more) = countAll site effects + countAll site more := by
  induction effects with
  | nil => simp
  | cons effect effects ih =>
    simp only [List.cons_append, countAll_cons, ih]
    omega

end Counting

namespace Node

@[simp] theorem reading_kind (node : Node) : node.reading.kind = node.kind := by
  cases node
  rw [reading]
  rfl

@[simp] theorem reading_span (node : Node) : node.reading.span = node.span := by
  cases node
  rw [reading]
  rfl

@[simp] theorem reading_children (node : Node) :
    node.reading.children = node.children.map reading := by
  cases node
  rw [reading, ← readings_eq]
  rfl

theorem mentions_eq (site : Site) (node : Node) (place : Place) :
    node.mentions site place = ((place.settle node.kind).own node).elim 0 site.tally +
      mentionsAll site (place.settle node.kind) node 0 node.children := by
  cases node
  rw [mentions]

/-- Only the place that a node really takes counts. -/
theorem mentions_congr {site : Site} {node : Node} {place other : Place}
    (h : place.settle node.kind = other.settle node.kind) :
    node.mentions site place = node.mentions site other := by
  rw [mentions_eq, mentions_eq, h]

/-- In every place that suits it, the effects of the node mention a site as often as its place
says. -/
def MentionsMatch (site : Site) (node : Node) : Prop :=
  ∀ place : Place, place.Fits node.kind →
    countAll site (place.effects node.reading) = node.mentions site place

end Node

open Node (mentionsAll MentionsMatch)

section Children

variable {site : Site} {place inner : Place} {parent : Node} {index : Nat} {nodes : List Node}
  {f : Reading → List Effect}

@[simp] theorem mentionsAll_nil : mentionsAll site place parent index [] = 0 := by
  rw [mentionsAll]

@[simp] theorem mentionsAll_cons (child : Node) (rest : List Node) :
    mentionsAll site place parent index (child :: rest) =
      ((place.inside parent index child).elim 0 fun inner => child.mentions site inner) +
        mentionsAll site place parent (index + 1) rest := by
  rw [mentionsAll]

theorem mentionsAll_append (nodes more : List Node) :
    mentionsAll site place parent index (nodes ++ more) =
      mentionsAll site place parent index nodes +
        mentionsAll site place parent (index + nodes.length) more := by
  induction nodes generalizing index with
  | nil => simp
  | cons node nodes ih =>
    have shift : index + 1 + nodes.length = index + (nodes.length + 1) := by omega
    simp only [List.cons_append, mentionsAll_cons, List.length_cons, ih, shift]
    omega

theorem mentionsAll_eq_zero (h : ∀ i child, index ≤ i → i < index + nodes.length →
    place.inside parent i child = none) : mentionsAll site place parent index nodes = 0 := by
  induction nodes generalizing index with
  | nil => simp
  | cons node nodes ih =>
    simp only [List.length_cons] at h
    have first := h index node (Nat.le_refl _) (by omega)
    have rest := @ih (index + 1) fun i child low high => h i child (by omega) (by omega)
    simp [first, rest]

/-- Effects that go through the children in order are counted child by child. -/
theorem countAll_flatMap (h : ∀ i child, index ≤ i → child ∈ nodes →
    countAll site (f child.reading) =
      (place.inside parent i child).elim 0 fun inner => child.mentions site inner) :
    countAll site ((nodes.map Node.reading).flatMap f) =
      mentionsAll site place parent index nodes := by
  induction nodes generalizing index with
  | nil => simp
  | cons node nodes ih =>
    have first := h index node (Nat.le_refl _) (by simp)
    have rest := @ih (index + 1) fun i child hi hc => h i child (by omega) (by simp [hc])
    rw [List.map_cons, List.flatMap_cons, countAll_append, first, rest, mentionsAll_cons]

/-- The case of one place for all children. -/
theorem countAll_uniform (matched : ∀ child ∈ nodes, child.MentionsMatch site)
    (fits : ∀ child ∈ nodes, inner.Fits child.kind)
    (h : ∀ i child, index ≤ i → child ∈ nodes → place.inside parent i child = some inner) :
    countAll site ((nodes.map Node.reading).flatMap inner.effects) =
      mentionsAll site place parent index nodes := by
  refine countAll_flatMap ?_
  intro i child hi hc
  rw [h i child hi hc, Option.elim_some]
  exact matched child hc inner (fits child hc)

theorem countAll_values (matched : ∀ child ∈ nodes, child.MentionsMatch site)
    (h : ∀ i child, index ≤ i → child ∈ nodes → place.inside parent i child = some .value) :
    countAll site (Reading.values (nodes.map Node.reading)) =
      mentionsAll site place parent index nodes :=
  @countAll_uniform site place .value parent index nodes matched (fun _ _ => trivial) h

theorem countAll_parameters (matched : ∀ child ∈ nodes, child.MentionsMatch site)
    (h : ∀ i child, index ≤ i → child ∈ nodes → place.inside parent i child = some .parameter) :
    countAll site (Reading.parameters (nodes.map Node.reading)) =
      mentionsAll site place parent index nodes :=
  @countAll_uniform site place .parameter parent index nodes matched (fun _ _ => trivial) h

theorem countAll_typeVariables (matched : ∀ child ∈ nodes, child.MentionsMatch site)
    (h : ∀ i child, index ≤ i → child ∈ nodes → place.inside parent i child = some .typeVariable) :
    countAll site ((nodes.map Node.reading).flatMap (·.roles.typeVariable)) =
      mentionsAll site place parent index nodes :=
  @countAll_uniform site place .typeVariable parent index nodes matched (fun _ _ => trivial) h

end Children

/-- The body of a function counts apart from its head. -/
theorem countAll_callable {site : Site} (scope : ScopeKind) (parts : Reading.Signature)
    (body : List Effect) :
    countAll site (Reading.callable scope parts body) =
      countAll site (Reading.callable scope parts []) + countAll site body := by
  simp only [Reading.callable, countAll_append, countAll_cons, count_scoped, countAll_nil]
  omega

theorem signature_bare {r : Reading} (noWhere : r.kind ≠ .whereExpression)
    (noType : r.kind ≠ .typedExpression) (noCall : r.kind ≠ .callExpression)
    (noName : r.kind ≠ .identifier) : r.signature = ⟨none, none, some r, [], []⟩ := by
  obtain ⟨kind, span, children, roles⟩ := r
  unfold Reading.signature
  split
  · next same => exact absurd (congrArg Reading.kind same) noWhere
  · next same => exact absurd (congrArg Reading.kind same) noType
  · next same => exact absurd (congrArg Reading.kind same) noCall
  · next same => exact absurd (congrArg Reading.kind same) noName
  · rfl

/-- What is declared global is not counted. -/
theorem countAll_globalNames {site : Site} (r : Reading) :
    countAll site (Reading.globalNames r) = 0 := by
  refine @Reading.rec (fun r => countAll site (Reading.globalNames r) = 0)
    (fun nodes => countAll site (Reading.allGlobalNames nodes) = 0) ?_ ?_ ?_ r
  · intro kind span children roles all
    have front {node : Reading} {rest : List Reading} (h : children = node :: rest) :
        countAll site (Reading.globalNames node) = 0 := by
      rw [h, Reading.allGlobalNames, countAll_append] at all
      omega
    unfold Reading.globalNames
    split
    · simp
    · next same =>
      cases same
      exact all
    · next same =>
      cases same
      exact all
    all_goals first
      | exact countAll_nil
      | next same =>
        cases same
        exact front rfl
  · rw [Reading.allGlobalNames, countAll_nil]
  · intro node rest first others
    rw [Reading.allGlobalNames, countAll_append, first, others]

section Constructs

/-! Constructs as values. -/

variable {site : Site} {kind : Kind} {span : Span} {children : List Node}
  {first second third : Node}

/-- A construct that only evaluates its children in order. -/
theorem mentions_values (matched : ∀ child ∈ children, child.MentionsMatch site)
    (h : ∀ i child, Place.inside .value ⟨kind, span, children⟩ i child = some .value)
    (own : Place.own .value ⟨kind, span, children⟩ = none) :
    countAll site (Reading.values (children.map Node.reading)) =
      Node.mentions site ⟨kind, span, children⟩ .value := by
  rw [Node.mentions_eq]
  simp only [Place.settle, own, Option.elim_none, Nat.zero_add]
  exact countAll_values matched fun i child _ _ => h i child

theorem mentions_quotation (matched : ∀ child ∈ children, child.MentionsMatch site)
    (h : ∀ i child, Place.inside .value ⟨kind, span, children⟩ i child = some .quoted)
    (own : Place.own .value ⟨kind, span, children⟩ = none) :
    countAll site ((children.map Node.reading).flatMap (·.roles.quoted)) =
      Node.mentions site ⟨kind, span, children⟩ .value := by
  rw [Node.mentions_eq]
  simp only [Place.settle, own, Option.elim_none, Nat.zero_add]
  exact @countAll_uniform site .value .quoted _ 0 _ matched (fun _ _ => trivial) fun i child _ _ =>
    h i child

/-- An assignment reads its right side, and binds the left side or takes it for a head. -/
theorem mentions_assignment {place : Place} (assigned : DefinitionKind)
    (left : first.MentionsMatch site) (right : third.MentionsMatch site)
    (h : ∀ i child, place.inside ⟨kind, span, [first, second, third]⟩ i child =
      Place.assigned assigned ⟨kind, span, [first, second, third]⟩ i) :
    countAll site (Reading.assignment assigned ([first, second, third].map Node.reading)) =
      mentionsAll site place ⟨kind, span, [first, second, third]⟩ 0 [first, second, third] := by
  have value := right .value trivial
  by_cases heads : first.reading.isSignature = true
  · have head := left (.head .function) trivial
    simp only [Place.effects] at value head
    have body := @countAll_callable site .function first.reading.signature
      third.reading.roles.value
    simp [Reading.assignment, h, Place.assigned, Node.headsFunction, heads, body, value, head,
      Nat.add_comm]
  · have target := left (.target assigned) trivial
    simp only [Place.effects] at value target
    simp [Reading.assignment, h, Place.assigned, Node.headsFunction, heads, value, target,
      Nat.add_comm]

theorem mentions_compoundAssignment (left : first.MentionsMatch site)
    (right : third.MentionsMatch site) :
    countAll site (Reading.compoundAssignment ([first, second, third].map Node.reading)) =
      Node.mentions site ⟨.compoundAssignment, span, [first, second, third]⟩ .value := by
  have left := left .value trivial
  have right := right .value trivial
  simp only [Place.effects] at left right
  by_cases name : first.kind = .identifier
  · simp [Reading.compoundAssignment, Node.mentions_eq, Place.settle, Place.own, Place.inside,
      Place.valueInside, count_update, name, left, right]
    omega
  · simp [Reading.compoundAssignment, Node.mentions_eq, Place.settle, Place.own, Place.inside,
      Place.valueInside, count_update, name, left, right, Nat.add_comm]

theorem mentions_keywordArgument (matched : ∀ child ∈ children, child.MentionsMatch site) :
    countAll site (Reading.keywordArgument (children.map Node.reading)) =
      Node.mentions site ⟨.keywordArgument, span, children⟩ .value := by
  rw [Node.mentions_eq]
  cases children with
  | nil => simp [Reading.keywordArgument, Place.settle, Place.own]
  | cons label values =>
    have inside : ∀ i child, 1 ≤ i → child ∈ values →
        Place.inside .value ⟨.keywordArgument, span, label :: values⟩ i child = some .value := by
      intro i child hi _
      simp [Place.inside, Place.valueInside, Nat.ne_of_gt hi]
    have behind := countAll_values (fun child hc => matched child (by simp [hc])) inside
    have before := matched label (by simp) .value trivial
    simp only [Place.effects] at before
    by_cases name : label.kind = .identifier
    · simp [Reading.keywordArgument, Place.settle, Place.own, Place.inside, Place.valueInside, name,
        behind]
    · simp [Reading.keywordArgument, Place.settle, Place.own, Place.inside, Place.valueInside, name,
        before, behind]

theorem mentions_fieldExpression (base : first.MentionsMatch site)
    (field : second.MentionsMatch site) :
    countAll site (Reading.fieldExpression ([first, second].map Node.reading)) =
      Node.mentions site ⟨.fieldExpression, span, [first, second]⟩ .value := by
  have base := base .value trivial
  have field := field .value trivial
  simp only [Place.effects] at base field
  by_cases interpolated : second.kind = .interpolation
  · simp [Reading.fieldExpression, Reading.values, Node.mentions_eq, Place.settle, Place.own,
      Place.inside, Place.valueInside, interpolated, base, field, Option.filter]
  · simp [Reading.fieldExpression, Reading.values, Node.mentions_eq, Place.settle, Place.own,
      Place.inside, Place.valueInside, interpolated, base, Option.filter]

/-- The head of a definition, and its body. -/
theorem mentions_definition {scope : ScopeKind} (hs : first.kind = .signature)
    (shape : first.kind.Shapes first.children) (hb : second.kind = .block)
    (head : first.MentionsMatch site) (body : second.MentionsMatch site)
    (h : ∀ i child, Place.inside .value ⟨kind, span, [first, second]⟩ i child =
      some (if i = 0 then .signature scope else .value))
    (own : Place.own .value ⟨kind, span, [first, second]⟩ = none) :
    countAll site (Reading.definition scope ([first, second].map Node.reading)) =
      Node.mentions site ⟨kind, span, [first, second]⟩ .value := by
  have head := head (.signature scope) hs
  have body := body .value trivial
  rw [hs] at shape
  obtain ⟨part, children⟩ := shape
  simp only [Place.effects, Node.reading_children, children, List.map_cons, List.map_nil,
    List.flatMap_cons, List.flatMap_nil, List.append_nil] at head body
  have whole := @countAll_callable site scope part.reading.signature second.reading.roles.value
  simp [Reading.definition, Reading.firstValue, Reading.values, Node.mentions_eq, Place.settle, own,
    h, hs, hb, children, whole, head, body]

theorem mentions_arrowFunction (parameters : first.MentionsMatch site)
    (body : second.MentionsMatch site) :
    countAll site (Reading.arrowFunction ([first, second].map Node.reading)) =
      Node.mentions site ⟨.arrowFunction, span, [first, second]⟩ .value := by
  have parameters := parameters .parameter trivial
  have body := body .value trivial
  simp only [Place.effects] at parameters body
  simp [Reading.arrowFunction, Reading.parameters, Reading.values, Node.mentions_eq, Place.settle,
    Place.own, Place.inside, Place.valueInside, parameters, body]

theorem mentions_doClause (hp : first.kind = .parameterList) (hb : second.kind = .block)
    (parameters : first.MentionsMatch site) (body : second.MentionsMatch site) :
    countAll site (Reading.doClause ([first, second].map Node.reading)) =
      Node.mentions site ⟨.doClause, span, [first, second]⟩ .value := by
  have parameters := parameters .parameter trivial
  have body := body .value trivial
  simp only [Place.effects] at parameters body
  simp [Reading.doClause, Reading.parameters, Reading.firstValue, Reading.values, Node.mentions_eq,
    Place.settle, Place.own, Place.inside, Place.valueInside, hp, hb, parameters, body]

theorem mentions_whereExpression (matched : ∀ child ∈ first :: children, child.MentionsMatch site) :
    countAll site (Reading.whereExpression ((first :: children).map Node.reading)) =
      Node.mentions site ⟨.whereExpression, span, first :: children⟩ .value := by
  have inside : ∀ i child, 1 ≤ i → child ∈ children →
      Place.inside .value ⟨.whereExpression, span, first :: children⟩ i child =
        some .typeVariable := by
    intro i child hi _
    simp [Place.inside, Place.valueInside, Nat.ne_of_gt hi]
  have clauses := countAll_typeVariables (fun child hc => matched child (by simp [hc])) inside
  have inner := matched first (by simp) .value trivial
  simp only [Place.effects] at inner
  simp [Reading.whereExpression, Reading.values, Node.mentions_eq, Place.settle, Place.own,
    Place.inside, Place.valueInside, clauses, inner, Nat.add_comm]

theorem mentions_letStatement (hl : first.kind = .letBindings) (hb : second.kind = .block)
    (bindings : first.MentionsMatch site) (body : second.MentionsMatch site) :
    countAll site (Reading.letStatement ([first, second].map Node.reading)) =
      Node.mentions site ⟨.letStatement, span, [first, second]⟩ .value := by
  have bindings := bindings .bindings hl
  have body := body .value trivial
  simp only [Place.effects, Node.reading_children] at bindings body
  simp [Reading.letStatement, Reading.firstValue, Reading.values, Node.mentions_eq, Place.settle,
    Place.own, Place.inside, Place.valueInside, hl, hb, bindings, body]

/-- Bindings count the same whether or not the first iterable is read outside. -/
theorem countAll_leadingBindings (bindings : List Reading) :
    countAll site (bindings.head?.toList.flatMap Reading.iterable) +
        countAll site (Reading.leadingBindings bindings) =
      countAll site (Reading.laterBindings bindings) := by
  cases bindings with
  | nil => simp [Reading.leadingBindings, Reading.laterBindings]
  | cons first rest => simp [Reading.leadingBindings, Reading.laterBindings]

theorem countAll_laterBindings {place : Place} {parent : Node} {index : Nat} {nodes : List Node}
    (matched : ∀ child ∈ nodes, child.MentionsMatch site)
    (loops : ∀ child ∈ nodes, child.kind = .forBinding)
    (h : ∀ i child, index ≤ i → child ∈ nodes → place.inside parent i child = some .loop) :
    countAll site (Reading.laterBindings (nodes.map Node.reading)) =
      mentionsAll site place parent index nodes :=
  @countAll_uniform site place .loop parent index nodes matched loops h

theorem mentions_forStatement {bindings : List Node} {body : Node}
    (loops : ∀ binding ∈ bindings, binding.kind = .forBinding) (hb : body.kind = .block)
    (matched : ∀ child ∈ bindings ++ [body], child.MentionsMatch site) :
    countAll site (Reading.forStatement ((bindings ++ [body]).map Node.reading)) =
      Node.mentions site ⟨.forStatement, span, bindings ++ [body]⟩ .value := by
  have filtered : ((bindings ++ [body]).map Node.reading).filter (·.kind == .forBinding) =
      bindings.map Node.reading := by
    rw [List.map_append, List.filter_append, List.filter_eq_self.mpr]
    · simp [hb]
    · intro r hr
      obtain ⟨binding, hm, rfl⟩ := List.mem_map.mp hr
      simp [loops binding hm]
  have found : ((bindings ++ [body]).map Node.reading).find? (·.kind == .block) =
      some body.reading := by
    rw [List.map_append, List.find?_append, List.find?_eq_none.mpr]
    · simp [hb]
    · intro r hr
      obtain ⟨binding, hm, rfl⟩ := List.mem_map.mp hr
      simp [loops binding hm]
  have inside : ∀ i child, 0 ≤ i → child ∈ bindings →
      Place.inside .value ⟨.forStatement, span, bindings ++ [body]⟩ i child = some .loop := by
    intro i child _ hc
    simp [Place.inside, Place.valueInside, loops child hc]
  have later := countAll_laterBindings (fun child hc => matched child (by simp [hc])) loops inside
  have leading := @countAll_leadingBindings site (bindings.map Node.reading)
  have value := matched body (by simp) .value trivial
  simp only [Place.effects] at value
  rw [Node.mentions_eq, mentionsAll_append]
  simp only [Reading.forStatement, Reading.firstValue, filtered, found]
  simp [Reading.values, Place.settle, Place.own, Place.inside, Place.valueInside, hb, value, ← later,
    ← leading]
  omega

theorem mentions_comprehension {clauses : List Node} (hf : second.kind = .forClause)
    (matched : ∀ child ∈ first :: second :: clauses, child.MentionsMatch site)
    (h : ∀ i child, Place.inside .value ⟨kind, span, first :: second :: clauses⟩ i child =
      some (if i ≠ 0 ∧ child.kind = .forClause then .clause else .value))
    (own : Place.own .value ⟨kind, span, first :: second :: clauses⟩ = none) :
    countAll site (Reading.comprehension ((first :: second :: clauses).map Node.reading)) =
      Node.mentions site ⟨kind, span, first :: second :: clauses⟩ .value := by
  have body := matched first (by simp) .value trivial
  have loops := matched second (by simp) .clause hf
  simp only [Place.effects, Node.reading_children] at body loops
  have leading := @countAll_leadingBindings site (second.children.map Node.reading)
  have behind : countAll site ((clauses.map Node.reading).flatMap Reading.clause) =
      mentionsAll site .value ⟨kind, span, first :: second :: clauses⟩ 2 clauses := by
    refine countAll_flatMap ?_
    intro i child hi hc
    have matched := matched child (by simp [hc])
    have later : i ≠ 0 := by omega
    by_cases clause : child.kind = .forClause
    · simpa [h, later, clause, Reading.clause, Place.effects] using matched .clause clause
    · simpa [h, later, clause, Reading.clause, Place.effects] using matched .value trivial
  rw [Node.mentions_eq]
  simp [Reading.comprehension, Reading.values, Place.settle, own, h, hf, body, behind, ← loops,
    ← leading]
  omega

theorem mentions_whileStatement (hc : first.kind ≠ .block) (hb : second.kind = .block)
    (condition : first.MentionsMatch site) (body : second.MentionsMatch site) :
    countAll site (Reading.whileStatement ([first, second].map Node.reading)) =
      Node.mentions site ⟨.whileStatement, span, [first, second]⟩ .value := by
  have condition := condition .value trivial
  have body := body .value trivial
  simp only [Place.effects] at condition body
  simp [Reading.whileStatement, Reading.firstValue, Reading.values, Node.mentions_eq, Place.settle,
    Place.own, Place.inside, Place.valueInside, hc, hb, condition, body]

theorem mentions_tryStatement (matched : ∀ child ∈ children, child.MentionsMatch site) :
    countAll site ((children.map Node.reading).map Reading.tryPart) =
      Node.mentions site ⟨.tryStatement, span, children⟩ .value := by
  rw [Node.mentions_eq, List.map_eq_flatMap]
  simp only [Place.settle, Place.own, Option.elim_none, Nat.zero_add]
  refine countAll_flatMap ?_
  intro i child _ hc
  by_cases handler : child.kind = .catchClause
  · simpa [Place.inside, Place.valueInside, handler, Place.effects] using
      matched child hc .handler handler
  · simpa [Place.inside, Place.valueInside, handler, Place.effects, Reading.tryPart] using
      matched child hc .value trivial

/-- Of a type definition only the head is looked at. -/
theorem mentions_typeDefinition {defined : DefinitionKind} (hh : first.kind = .typeHead)
    (head : first.MentionsMatch site)
    (h : ∀ i child, Place.inside .value ⟨kind, span, first :: children⟩ i child =
      if i = 0 then some (.typeHead defined) else none)
    (own : Place.own .value ⟨kind, span, first :: children⟩ = none) :
    countAll site (Reading.typeDefinition defined ((first :: children).map Node.reading)) =
      Node.mentions site ⟨kind, span, first :: children⟩ .value := by
  have head := head (.typeHead defined) hh
  have rest : mentionsAll site .value ⟨kind, span, first :: children⟩ 1 children = 0 := by
    apply mentionsAll_eq_zero
    intro i child hi _
    rw [h, if_neg (Nat.ne_of_gt hi)]
  have same : Reading.typeDefinition defined ((first :: children).map Node.reading) =
      Reading.typeDefinition defined [first.reading] := by
    simp [Reading.typeDefinition, hh]
  rw [Node.mentions_eq, same]
  simpa [Place.settle, own, h, rest, Place.effects] using head

theorem mentions_moduleDefinition (hn : first.kind = .identifier)
    (name : first.MentionsMatch site) :
    countAll site (Reading.moduleDefinition ([first, second].map Node.reading)) =
      Node.mentions site ⟨.moduleDefinition, span, [first, second]⟩ .value := by
  have name := name (.declared .moduleName) (by simp [Place.Fits, hn, Kind.isImportable])
  simpa [Reading.moduleDefinition, Node.mentions_eq, Place.settle, Place.own, Place.inside,
    Place.valueInside, hn, Place.effects] using name

theorem mentions_importStatement (matched : ∀ child ∈ children, child.MentionsMatch site)
    (h : ∀ i child, Place.inside .value ⟨kind, span, children⟩ i child =
      some (if child.kind = .selectedImport then .selected else .imported))
    (own : Place.own .value ⟨kind, span, children⟩ = none) :
    countAll site (Reading.importStatement (children.map Node.reading)) =
      Node.mentions site ⟨kind, span, children⟩ .value := by
  rw [Node.mentions_eq]
  simp only [Place.settle, own, Option.elim_none, Nat.zero_add]
  refine countAll_flatMap ?_
  intro i child _ hc
  by_cases selected : child.kind = .selectedImport
  · simpa [h, selected, Place.effects] using matched child hc .selected trivial
  · simpa [h, selected, Place.effects] using matched child hc .imported trivial

theorem mentions_constStatement (matched : ∀ child ∈ children, child.MentionsMatch site) :
    countAll site (Reading.constStatement (children.map Node.reading)) =
      Node.mentions site ⟨.constStatement, span, children⟩ .value := by
  rw [Node.mentions_eq]
  simp only [Place.settle, Place.own, Option.elim_none, Nat.zero_add]
  refine countAll_flatMap ?_
  intro i child _ hc
  by_cases assigned : child.kind = .assignment
  · simpa [Place.inside, Place.valueInside, assigned, Place.effects] using
      matched child hc .constant assigned
  · simpa [Place.inside, Place.valueInside, assigned, Place.effects] using
      matched child hc .value trivial

theorem mentions_globalStatement (matched : ∀ child ∈ children, child.MentionsMatch site) :
    countAll site (Reading.globalStatement (children.map Node.reading)) =
      Node.mentions site ⟨.globalStatement, span, children⟩ .value := by
  rw [Node.mentions_eq]
  simp only [Place.settle, Place.own, Option.elim_none, Nat.zero_add]
  refine countAll_flatMap ?_
  intro i child _ hc
  rw [countAll_append, countAll_globalNames]
  by_cases assigned : child.kind = .assignment ∨ child.kind = .compoundAssignment
  · simpa [Place.inside, Place.valueInside, assigned, Place.effects] using
      matched child hc .value trivial
  · simp [Place.inside, Place.valueInside, assigned]

theorem mentions_localStatement (matched : ∀ child ∈ children, child.MentionsMatch site) :
    countAll site (Reading.parameters (children.map Node.reading)) =
      Node.mentions site ⟨.localStatement, span, children⟩ .value := by
  rw [Node.mentions_eq]
  simp only [Place.settle, Place.own, Option.elim_none, Nat.zero_add]
  exact countAll_parameters matched fun _ _ _ _ => rfl

/-- Every construct as a value. -/
theorem mentions_value (formed : Node.Formed ⟨kind, span, children⟩)
    (matched : ∀ child ∈ children, child.MentionsMatch site) :
    countAll site (Reading.valueEffects kind span (children.map Node.reading)) =
      Node.mentions site ⟨kind, span, children⟩ .value := by
  have shape : kind.Shapes children := formed.shape
  cases kind with
  | identifier | macroIdentifier =>
    obtain rfl : children = [] := shape
    simp [Reading.valueEffects, Node.mentions_eq, Place.settle, Place.own]
  | error | operator | integerLiteral | floatLiteral | charLiteral | booleanLiteral | symbol | colon
  | indexKeyword | breakStatement | continueStatement =>
    obtain rfl : children = [] := shape
    simp [Reading.valueEffects, Node.mentions_eq, Place.settle, Place.own]
  | exportStatement =>
    rw [Node.mentions_eq, mentionsAll_eq_zero fun _ _ _ _ => rfl]
    rfl
  | quoteExpression | quoteStatement => exact mentions_quotation matched (fun _ _ => rfl) rfl
  | assignment =>
    obtain ⟨left, operator, right, rfl, _⟩ := shape
    rw [Node.mentions_eq]
    simp only [Place.settle, Place.own, Option.elim_none, Nat.zero_add]
    exact mentions_assignment .variableName (matched left (by simp)) (matched right (by simp))
      fun _ _ => rfl
  | compoundAssignment =>
    obtain ⟨left, operator, right, rfl, _⟩ := shape
    exact mentions_compoundAssignment (matched left (by simp)) (matched right (by simp))
  | keywordArgument => exact mentions_keywordArgument matched
  | fieldExpression =>
    obtain ⟨base, field, rfl, _⟩ := shape
    exact mentions_fieldExpression (matched base (by simp)) (matched field (by simp))
  | functionDefinition | macroDefinition =>
    obtain ⟨head, body, rfl, hs, hb⟩ := shape
    exact mentions_definition hs (formed.child head (by simp)).shape hb (matched head (by simp))
      (matched body (by simp)) (fun _ _ => rfl) rfl
  | arrowFunction =>
    obtain ⟨parameters, body, rfl⟩ := shape
    exact mentions_arrowFunction (matched parameters (by simp)) (matched body (by simp))
  | doClause =>
    obtain ⟨parameters, body, rfl, hp, hb⟩ := shape
    exact mentions_doClause hp hb (matched parameters (by simp)) (matched body (by simp))
  | whereExpression =>
    obtain ⟨inner, clauses, rfl⟩ := shape
    exact mentions_whereExpression matched
  | letStatement =>
    obtain ⟨bindings, body, rfl, hl, hb⟩ := shape
    exact mentions_letStatement hl hb (matched bindings (by simp)) (matched body (by simp))
  | forStatement =>
    obtain ⟨bindings, body, rfl, loops, hb⟩ := shape
    exact mentions_forStatement loops hb matched
  | comprehension | generator =>
    obtain ⟨body, first, rest, rfl, hf, _⟩ := shape
    exact mentions_comprehension hf matched (fun _ _ => rfl) rfl
  | whileStatement =>
    obtain ⟨condition, body, rfl, hc, hb⟩ := shape
    exact mentions_whileStatement hc hb (matched condition (by simp)) (matched body (by simp))
  | tryStatement => exact mentions_tryStatement matched
  | structDefinition =>
    obtain ⟨head, body, rfl, hh, _⟩ := shape
    exact mentions_typeDefinition hh (matched head (by simp)) (fun _ _ => rfl) rfl
  | abstractDefinition | primitiveDefinition =>
    obtain ⟨head, rest, rfl, hh⟩ := shape
    exact mentions_typeDefinition hh (matched head (by simp)) (fun _ _ => rfl) rfl
  | moduleDefinition =>
    obtain ⟨name, body, rfl, hn, _⟩ := shape
    exact mentions_moduleDefinition hn (matched name (by simp))
  | importStatement | usingStatement => exact mentions_importStatement matched (fun _ _ => rfl) rfl
  | constStatement => exact mentions_constStatement matched
  | globalStatement => exact mentions_globalStatement matched
  | localStatement => exact mentions_localStatement matched
  | _ => exact mentions_values matched (fun _ _ => rfl) rfl

end Constructs

end CellBindings
