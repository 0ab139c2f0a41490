import CellBindings.Proofs.PlacedEffects

/-!
Positions of names. On the way down to a name every node is looked at in some place, except in
exempt positions, where names are labels or are not evaluated in the cell, and in two parts of the
head of a definition. The place of a node tells where in the tree it stands, so a name that is not
looked at stands in one of these positions.
-/

namespace CellBindings

open Node (mentionsAll)

namespace Kind

/-- Only the interpolations inside are evaluated. -/
def isQuotation : Kind → Bool
  | .quoteExpression | .quoteStatement => true
  | _ => false

/-- The names inside belong to something other than the cell. -/
def isClosed : Kind → Bool
  | .moduleDefinition | .structDefinition | .abstractDefinition | .primitiveDefinition
  | .importStatement | .usingStatement | .exportStatement => true
  | _ => false

def isAssignment : Kind → Bool
  | .assignment | .compoundAssignment => true
  | _ => false

def isCallee : Kind → Bool
  | .identifier | .operator | .fieldExpression | .parenthesizedExpression => true
  | _ => false

def exempts (kind : Kind) : Bool :=
  kind.isQuotation || kind.isClosed ||
    match kind with
    | .fieldExpression | .keywordArgument | .curlyExpression | .globalStatement => true
    | _ => false

end Kind

namespace Node

def kindAt? (root : Node) (path : List Nat) : Option Kind := (root.descend? path).map (·.kind)

inductive QuotedAt (root : Node) : List Nat → Prop where
  | part {path index} : (root.kindAt? path).any Kind.isQuotation → QuotedAt root (path ++ [index])
  | deeper {path index} : QuotedAt root path → root.kindAt? path ≠ some .interpolation →
      QuotedAt root (path ++ [index])

inductive TargetAt (root : Node) : List Nat → Prop where
  | left {path} : root.kindAt? path = some .assignment →
      (root.descend? path).any (·.headsFunction) = false → TargetAt root (path ++ [0])
  | part {path index kind} : TargetAt root path → root.kindAt? path = some kind →
      kind = .tupleExpression ∨ kind = .parenthesizedExpression ∨ kind = .keywordArguments →
      TargetAt root (path ++ [index])
  | front {path kind} : TargetAt root path → root.kindAt? path = some kind →
      kind = .typedExpression ∨ kind = .splatExpression ∨ kind = .curlyExpression →
      TargetAt root (path ++ [0])

inductive HeadAt (root : Node) : List Nat → Prop where
  | long {path kind} : root.kindAt? path = some kind →
      kind = .functionDefinition ∨ kind = .macroDefinition → HeadAt root (path ++ [0] ++ [0])
  | short {path} : root.kindAt? path = some .assignment →
      (root.descend? path).any (·.headsFunction) → HeadAt root (path ++ [0])
  /-- Without type variables or a return type. -/
  | inner {path kind} : HeadAt root path → root.kindAt? path = some kind →
      kind = .whereExpression ∨ kind = .typedExpression → HeadAt root (path ++ [0])

inductive CalleeAt (root : Node) : List Nat → Prop where
  | plain {path} : HeadAt root path → root.kindAt? path = some .callExpression →
      root.kindAt? (path ++ [0]) ≠ some .curlyExpression → CalleeAt root (path ++ [0])
  /-- Without type variables. -/
  | curly {path} : HeadAt root path → root.kindAt? path = some .callExpression →
      root.kindAt? (path ++ [0]) = some .curlyExpression → CalleeAt root (path ++ [0] ++ [0])

inductive Exempt (root : Node) : List Nat → Prop where
  | quoted {path} : root.QuotedAt path → Exempt root path
  | closed {path index back} : (root.kindAt? path).any Kind.isClosed →
      Exempt root (path ++ index :: back)
  | field {path} : root.kindAt? path = some .fieldExpression → Exempt root (path ++ [1])
  | label {path} : root.kindAt? path = some .keywordArgument → Exempt root (path ++ [0])
  | typeArgument {path index back} : root.TargetAt path →
      root.kindAt? path = some .curlyExpression → index ≠ 0 → Exempt root (path ++ index :: back)
  | declaration {path index back} : root.kindAt? path = some .globalStatement →
      (root.kindAt? (path ++ [index])).any Kind.isAssignment = false →
      Exempt root (path ++ index :: back)

/-- The parts of the head of a definition that are never looked at: a callee that is neither a name
nor a field nor in parentheses, and a `do` clause. -/
inductive Unseen (root : Node) : List Nat → Prop where
  | callee {path back} : root.CalleeAt path →
      (root.kindAt? path).any (fun kind => !kind.isCallee) → Unseen root (path ++ back)
  | doClause {path index back} : root.HeadAt path → root.kindAt? path = some .callExpression →
      2 ≤ index → Unseen root (path ++ index :: back)

def Passes (root : Node) (path : List Nat) (isKind : Kind → Bool) : Prop :=
  ∃ n ≤ path.length, (root.kindAt? (path.take n)).any isKind

instance (root : Node) (path : List Nat) (isKind : Kind → Bool) :
    Decidable (root.Passes path isKind) :=
  inferInstanceAs (Decidable (∃ n ≤ path.length, _))

section Passing

variable {root : Node} {path : List Nat} {isKind : Kind → Bool}

theorem passes_front (h : (root.kindAt? path).any isKind) (back : List Nat) :
    root.Passes (path ++ back) isKind := by
  refine ⟨path.length, by simp, ?_⟩
  rwa [List.take_left]

theorem Passes.append (h : root.Passes path isKind) (back : List Nat) :
    root.Passes (path ++ back) isKind := by
  obtain ⟨n, hn, found⟩ := h
  refine ⟨n, by simp; omega, ?_⟩
  rwa [List.take_append_of_le_length hn]

theorem Passes.mono {other : Kind → Bool} (h : root.Passes path isKind)
    (implies : ∀ kind, isKind kind = true → other kind = true) : root.Passes path other := by
  obtain ⟨n, hn, found⟩ := h
  refine ⟨n, hn, ?_⟩
  cases at_n : root.kindAt? (path.take n) with
  | none =>
    rw [at_n] at found
    cases found
  | some kind =>
    rw [at_n] at found
    exact implies kind found

theorem QuotedAt.passes (h : root.QuotedAt path) : root.Passes path Kind.isQuotation := by
  induction h with
  | part quotation => exact passes_front quotation _
  | deeper _ _ ih => exact ih.append _

/-- An exempt position is exempt because of a node above it. -/
theorem Exempt.passes (h : root.Exempt path) : root.Passes path Kind.exempts := by
  have because {front : List Nat} {kind : Kind} (found : root.kindAt? front = some kind)
      (h : kind.exempts = true) (back : List Nat) : root.Passes (front ++ back) Kind.exempts :=
    passes_front (by rw [found]; exact h) back
  cases h with
  | quoted quoted => exact quoted.passes.mono fun kind quotation => by simp [Kind.exempts, quotation]
  | closed closed =>
    exact (passes_front closed _).mono fun kind isClosed => by simp [Kind.exempts, isClosed]
  | field found => exact because found rfl _
  | label found => exact because found rfl _
  | typeArgument _ found _ => exact because found rfl _
  | declaration found _ => exact because found rfl _

theorem CalleeAt.passes (h : root.CalleeAt path) : root.Passes path (· == .callExpression) := by
  cases h with
  | plain _ call _ => exact passes_front (by rw [call]; rfl) _
  | curly _ call _ =>
    rw [List.append_assoc]
    exact passes_front (by rw [call]; rfl) _

theorem Unseen.passes (h : root.Unseen path) : root.Passes path (· == .callExpression) := by
  cases h with
  | callee callee _ => exact callee.passes.append _
  | doClause _ call _ => exact passes_front (by rw [call]; rfl) _

end Passing

end Node

section Positions

variable {root parent child : Node} {path : List Nat} {index : Nat}

theorem Node.Formed.leaf_childless {node : Node} (h : node.Formed)
    (leaf : node.kind.isLeaf = true) : node.children = [] := by
  have shape := h.shape
  unfold Kind.isLeaf at leaf
  split at leaf
  all_goals first
    | cases leaf
      done
    | next kind => rwa [kind] at shape

theorem Node.Formed.name_childless {node : Node} (h : node.Formed) (name : node.kind = .identifier) :
    node.children = [] :=
  h.leaf_childless (by rw [name]; rfl)

theorem only_child {nodes : List Node} (one : ∃ part, nodes = [part])
    (hc : nodes[index]? = some child) : index = 0 := by
  obtain ⟨part, rfl⟩ := one
  have bound := (List.getElem?_eq_some_iff.mp hc).1
  rw [List.length_singleton] at bound
  omega

theorem name_has_no_child (formed : parent.Formed) (hc : parent.children[index]? = some child) :
    parent.kind ≠ .identifier := by
  intro name
  rw [formed.name_childless name] at hc
  cases hc

namespace Node

theorem descend?_append (node : Node) (front back : List Nat) :
    node.descend? (front ++ back) = (node.descend? front).bind (·.descend? back) := by
  induction front generalizing node with
  | nil => rfl
  | cons index front ih =>
    simp only [List.cons_append, descend?]
    cases node.child? index with
    | none => rfl
    | some child => exact ih child

theorem descend?_snoc (found : root.descend? path = some parent)
    (hc : parent.children[index]? = some child) : root.descend? (path ++ [index]) = some child := by
  rw [descend?_append, found]
  simp [descend?, child?, hc]

theorem kindAt?_eq {node : Node} (found : root.descend? path = some node) :
    root.kindAt? path = some node.kind := by
  rw [kindAt?, found]
  rfl

/-- Below a node without children there is only the node itself. -/
theorem descend?_childless {node leaf : Node} {back : List Nat} (none : node.children = [])
    (h : node.descend? back = some leaf) : back = [] ∧ leaf = node := by
  cases back with
  | nil => exact ⟨rfl, (Option.some.inj h).symm⟩
  | cons index back => simp [descend?, child?, none] at h

end Node

def Place.Holds (root : Node) (path : List Nat) : Place → Prop
  | .quoted => root.QuotedAt path
  | .target _ => root.TargetAt path
  | .signature _ => ∃ front kind, path = front ++ [0] ∧ root.kindAt? front = some kind ∧
      (kind = .functionDefinition ∨ kind = .macroDefinition)
  | .head _ => root.HeadAt path
  | .callee _ => ∃ front, path = front ++ [0] ∧ root.HeadAt front ∧
      root.kindAt? front = some .callExpression
  | .bareCallee _ => root.CalleeAt path
  | .typeHead _ | .typeName _ | .declared _ | .imported | .selected =>
    ∃ front index back, path = front ++ index :: back ∧ (root.kindAt? front).any Kind.isClosed
  | _ => True

namespace Place

theorem settle_settle (place : Place) (kind : Kind) :
    (place.settle kind).settle kind = place.settle kind := by
  have parameter : (asParameter kind).settle kind = asParameter kind := by
    cases kind <;> rfl
  have bareCallee (scope : ScopeKind) :
      (asBareCallee scope kind).settle kind = asBareCallee scope kind := by
    cases kind <;> rfl
  cases place with
  | target assigned => cases kind <;> rfl
  | parameter => exact parameter
  | typeVariable => cases kind <;> rfl
  | head scope => cases kind <;> rfl
  | callee scope => cases kind <;> rfl
  | bareCallee scope => exact bareCallee scope
  | _ => rfl

theorem asTarget_eq {assigned : DefinitionKind} {kind : Kind}
    (h : asTarget assigned kind = .target assigned) :
    kind = .identifier ∨ kind = .typedExpression ∨ kind = .splatExpression ∨
      kind = .curlyExpression ∨
      (kind = .tupleExpression ∨ kind = .parenthesizedExpression ∨ kind = .keywordArguments) := by
  unfold asTarget at h
  split at h
  all_goals first
    | cases h
      done
    | simp

theorem asHead_eq {scope : ScopeKind} {kind : Kind} (h : asHead scope kind = .head scope)
    (noName : kind ≠ .identifier) (noWhere : kind ≠ .whereExpression)
    (noType : kind ≠ .typedExpression) : kind = .callExpression := by
  unfold asHead at h
  split at h
  · exact absurd rfl noName
  · exact absurd rfl noWhere
  · exact absurd rfl noType
  · rfl
  · unfold asParameter at h
    split at h <;> cases h

theorem asBareCallee_eq {scope : ScopeKind} {kind : Kind}
    (h : asBareCallee scope kind = .bareCallee scope) :
    kind ≠ .fieldExpression ∧ kind ≠ .parenthesizedExpression := by
  constructor
  · rintro rfl
    cases h
  · rintro rfl
    cases h

theorem asCallee_eq {scope : ScopeKind} {kind : Kind} (h : asCallee scope kind = .callee scope) :
    kind = .curlyExpression := by
  unfold asCallee at h
  split at h
  · rfl
  · unfold asBareCallee at h
    split at h <;> cases h

/-- The place that a node really takes says no less about its position. -/
theorem settle_holds {place : Place} {kind : Kind} (found : root.kindAt? path = some kind)
    (h : place.Holds root path) : (place.settle kind).Holds root path := by
  have parameter : (asParameter kind).Holds root path := by
    unfold asParameter
    split <;> trivial
  have bareCallee {scope : ScopeKind} (h : root.CalleeAt path) :
      (asBareCallee scope kind).Holds root path := by
    unfold asBareCallee
    split
    · trivial
    · trivial
    · exact h
  cases place with
  | target assigned =>
    simp only [settle, asTarget]
    split
    all_goals first
      | exact h
      | trivial
  | parameter => exact parameter
  | typeVariable =>
    simp only [settle, asTypeVariable]
    split <;> trivial
  | head scope =>
    simp only [settle, asHead]
    split
    all_goals first
      | exact h
      | exact parameter
  | callee scope =>
    simp only [settle, asCallee]
    split
    · exact h
    · next other =>
      obtain ⟨front, rfl, head, call⟩ := h
      refine bareCallee (.plain head call ?_)
      rw [found]
      intro curly
      exact other (Option.some.inj curly)
  | bareCallee scope => exact bareCallee h
  | _ => exact h

theorem assigned_holds {kind : DefinitionKind} {inner : Place}
    (found : root.descend? path = some parent) (isAssignment : parent.kind = .assignment)
    (h : assigned kind parent index = some inner) : inner.Holds root (path ++ [index]) := by
  have kindAt := Node.kindAt?_eq found
  rw [isAssignment] at kindAt
  unfold assigned at h
  split at h
  · cases h
    split
    · next heads => exact .short kindAt (by rw [found]; exact heads)
    · next other => exact .left kindAt (by rw [found]; simpa using other)
  · cases h
    trivial
  · cases h

theorem valueInside_holds {inner : Place} (found : root.descend? path = some parent)
    (h : valueInside parent index child = some inner) : inner.Holds root (path ++ [index]) := by
  have kindAt := Node.kindAt?_eq found
  obtain ⟨kind, span, children⟩ := parent
  have closed (is : kind.isClosed = true) : ∃ front i back,
      path ++ [index] = front ++ i :: back ∧ (root.kindAt? front).any Kind.isClosed :=
    ⟨path, index, [], rfl, by rw [kindAt]; exact is⟩
  cases kind with
  | exportStatement => cases h
  | quoteExpression | quoteStatement =>
    cases h
    exact .part (by rw [kindAt]; rfl)
  | assignment => exact assigned_holds found rfl h
  | compoundAssignment | keywordArgument =>
    obtain ⟨_, same⟩ := Option.ite_none_left_eq_some.mp h
    cases same
    trivial
  | fieldExpression | globalStatement => exact of_guard h fun _ => trivial
  | functionDefinition =>
    refine of_choice h ?_ trivial
    intro zero
    exact ⟨path, _, by rw [zero], kindAt, .inl rfl⟩
  | macroDefinition =>
    refine of_choice h ?_ trivial
    intro zero
    exact ⟨path, _, by rw [zero], kindAt, .inr rfl⟩
  | arrowFunction | doClause | whereExpression | letStatement | forStatement | comprehension
  | generator | tryStatement | constStatement => exact of_choice h (fun _ => trivial) trivial
  | structDefinition | abstractDefinition | primitiveDefinition | moduleDefinition =>
    exact of_guard h fun _ => closed rfl
  | importStatement | usingStatement => exact of_choice h (fun _ => closed rfl) (closed rfl)
  | _ =>
    cases h
    trivial

/-- The parts of a target that are looked at are targets themselves, but for a type. -/
theorem target_holds {assigned : DefinitionKind} {inner : Place} (formed : parent.Formed)
    (settled : asTarget assigned parent.kind = .target assigned)
    (found : root.descend? path = some parent) (holds : root.TargetAt path)
    (hc : parent.children[index]? = some child)
    (h : inside (.target assigned) parent index child = some inner) :
    inner.Holds root (path ++ [index]) := by
  have kindAt := Node.kindAt?_eq found
  simp only [inside] at h
  split at h
  · next typed =>
    refine of_choice h ?_ trivial
    rintro rfl
    exact .front holds kindAt (.inl typed)
  · next splat =>
    refine of_guard h ?_
    rintro rfl
    exact .front holds kindAt (.inr (.inl splat))
  · next curly =>
    refine of_guard h ?_
    rintro rfl
    exact .front holds kindAt (.inr (.inr curly))
  · next noType noSplat noCurly =>
    cases h
    rcases asTarget_eq settled with name | typed | splat | curly | kinds
    · exact absurd name (name_has_no_child formed hc)
    · exact absurd typed noType
    · exact absurd splat noSplat
    · exact absurd curly noCurly
    · exact .part holds kindAt kinds

/-- Type variables and return types are taken off a head, and what is left is a call. -/
theorem head_holds {scope : ScopeKind} {inner : Place} (formed : parent.Formed)
    (settled : asHead scope parent.kind = .head scope) (found : root.descend? path = some parent)
    (holds : root.HeadAt path) (hc : parent.children[index]? = some child)
    (h : inside (.head scope) parent index child = some inner) :
    inner.Holds root (path ++ [index]) := by
  have kindAt := Node.kindAt?_eq found
  simp only [inside] at h
  split at h
  · next isWhere =>
    refine of_choice h ?_ trivial
    rintro rfl
    exact .inner holds kindAt (.inl isWhere)
  · next typed =>
    refine of_choice h ?_ trivial
    rintro rfl
    exact .inner holds kindAt (.inr typed)
  · next noWhere noType =>
    rw [asHead_eq settled (name_has_no_child formed hc) noWhere noType] at kindAt
    split at h
    · cases h
      exact ⟨path, rfl, holds, kindAt⟩
    · cases h
      trivial
    · cases h

/-- A child that is looked at stands where its place says. -/
theorem inside_holds {place inner : Place} (formed : parent.Formed) (fits : place.Fits parent.kind)
    (settled : place.settle parent.kind = place) (found : root.descend? path = some parent)
    (holds : place.Holds root path) (hc : parent.children[index]? = some child)
    (h : place.inside parent index child = some inner) : inner.Holds root (path ++ [index]) := by
  have kindAt := Node.kindAt?_eq found
  have deeper (h : ∃ front i back, path = front ++ i :: back ∧
      (root.kindAt? front).any Kind.isClosed) : ∃ front i back,
        path ++ [index] = front ++ i :: back ∧ (root.kindAt? front).any Kind.isClosed := by
    obtain ⟨front, i, back, rfl, closed⟩ := h
    exact ⟨front, i, back ++ [index], by simp, closed⟩
  cases place with
  | value => exact valueInside_holds found h
  | quoted =>
    cases h
    split
    · trivial
    · next other =>
      refine .deeper holds ?_
      rw [kindAt]
      simpa using other
  | target kind => exact target_holds formed settled found holds hc h
  | constant => exact assigned_holds found fits h
  | signature scope =>
    cases h
    obtain ⟨front, kind, rfl, definition, isDefinition⟩ := holds
    have shape := formed.shape
    have kind : parent.kind = .signature := fits
    rw [kind] at shape
    rw [only_child shape hc]
    exact .long definition isDefinition
  | head scope => exact head_holds formed settled found holds hc h
  | callee scope =>
    obtain ⟨front, rfl, head, call⟩ := holds
    rw [asCallee_eq settled] at kindAt
    refine of_choice h ?_ trivial
    rintro rfl
    exact .curly head call kindAt
  | typeHead kind =>
    cases h
    exact deeper holds
  | typeName kind | imported =>
    simp only [inside] at h
    repeat' split at h
    all_goals first
      | cases h
        done
      | cases h
        exact deeper holds
  | selected =>
    obtain ⟨_, same⟩ := Option.ite_none_left_eq_some.mp h
    cases same
    exact deeper holds
  | bareCallee scope => cases h
  | declared kind => cases h
  | _ =>
    simp only [inside] at h
    repeat' split at h
    all_goals first
      | cases h
        done
      | cases h
        trivial

end Place

def Node.Skipped (root : Node) (path : List Nat) : Prop := root.Exempt path ∨ root.Unseen path

/-- Between the sides of an assignment there is no name. -/
theorem no_name_between {leaf : Node} {back : List Nat} (formed : parent.Formed)
    (sides : ∃ left operator right, parent.children = [left, operator, right] ∧
      operator.kind = .operator)
    (hc : parent.children[index]? = some child) (below : child.descend? back = some leaf)
    (name : leaf.kind = .identifier) : index = 0 ∨ index = 2 := by
  have childFormed := formed.child child (List.mem_of_getElem? hc)
  obtain ⟨left, operator, right, children, isOperator⟩ := sides
  have bound := (List.getElem?_eq_some_iff.mp hc).1
  rw [children] at hc bound
  by_cases middle : index = 1
  · subst middle
    cases hc
    have shape := childFormed.shape
    rw [isOperator] at shape
    obtain ⟨_, rfl⟩ := Node.descend?_childless shape below
    rw [isOperator] at name
    cases name
  · simp only [List.length_cons, List.length_nil] at bound
    omega

theorem assigned_looks {kind : DefinitionKind} (h : index = 0 ∨ index = 2) :
    Place.assigned kind parent index ≠ none := by
  rcases h with rfl | rfl
  · simp [Place.assigned]
  · simp [Place.assigned]

/-- A child that a value does not look at. -/
theorem exempt_in_value {leaf : Node} {back : List Nat} (formed : parent.Formed)
    (found : root.descend? path = some parent) (hc : parent.children[index]? = some child)
    (below : child.descend? back = some leaf) (name : leaf.kind = .identifier)
    (h : Place.valueInside parent index child = none) : root.Exempt (path ++ index :: back) := by
  have kindAt := Node.kindAt?_eq found
  have shape := formed.shape
  have childFormed := formed.child child (List.mem_of_getElem? hc)
  have childAt := Node.kindAt?_eq (Node.descend?_snoc found hc)
  obtain ⟨kind, span, children⟩ := parent
  have closed (is : kind.isClosed = true) : root.Exempt (path ++ index :: back) :=
    .closed (by rw [kindAt]; exact is)
  cases kind with
  | exportStatement | structDefinition | abstractDefinition | primitiveDefinition
  | moduleDefinition => exact closed rfl
  | assignment => exact absurd h (assigned_looks (no_name_between formed shape hc below name))
  | compoundAssignment =>
    simp only [Place.valueInside] at h
    split at h
    · have side := no_name_between formed shape hc below name
      omega
    · cases h
  | keywordArgument =>
    simp only [Place.valueInside] at h
    split at h
    · next label =>
      obtain ⟨rfl, _⟩ := Node.descend?_childless (childFormed.name_childless label.2) below
      rw [label.1]
      exact .label kindAt
    · cases h
  | fieldExpression =>
    obtain ⟨base, field, rfl, isField⟩ := shape
    simp only [Place.valueInside] at h
    split at h
    · cases h
    · next other =>
      obtain ⟨first, noInterpolation⟩ := not_or.mp other
      have bound := (List.getElem?_eq_some_iff.mp hc).1
      simp only [List.length_cons, List.length_nil] at bound
      obtain rfl : index = 1 := by omega
      cases hc
      have childless : child.children = [] := by
        rcases isField with leaf | interpolation
        · exact childFormed.leaf_childless leaf
        · exact absurd interpolation noInterpolation
      obtain ⟨rfl, _⟩ := Node.descend?_childless childless below
      exact .field kindAt
  | globalStatement =>
    simp only [Place.valueInside] at h
    split at h
    · cases h
    · next other =>
      refine .declaration kindAt ?_
      rw [childAt, Option.any_some]
      unfold Kind.isAssignment
      split
      · next kind => exact absurd (.inl kind) other
      · next kind => exact absurd (.inr kind) other
      · rfl
  | _ => cases h

/-- Of the parts of a target only type parameters are not looked at. -/
theorem exempt_in_target {assigned : DefinitionKind} {back : List Nat} (formed : parent.Formed)
    (found : root.descend? path = some parent) (holds : root.TargetAt path)
    (hc : parent.children[index]? = some child)
    (h : Place.inside (.target assigned) parent index child = none) :
    root.Exempt (path ++ index :: back) := by
  have kindAt := Node.kindAt?_eq found
  have shape := formed.shape
  simp only [Place.inside] at h
  split at h
  · cases h
  · next splat =>
    rw [splat] at shape
    simp [only_child shape hc] at h
  · next curly =>
    split at h
    · cases h
    · next other => exact .typeArgument holds (by rw [kindAt, curly]) other
  · cases h

/-- Of the parts of a head only a `do` clause is not looked at. -/
theorem unseen_in_head {scope : ScopeKind} {back : List Nat} (formed : parent.Formed)
    (settled : Place.asHead scope parent.kind = .head scope)
    (found : root.descend? path = some parent) (holds : root.HeadAt path)
    (hc : parent.children[index]? = some child)
    (h : Place.inside (.head scope) parent index child = none) :
    root.Unseen (path ++ index :: back) := by
  have kindAt := Node.kindAt?_eq found
  simp only [Place.inside] at h
  split at h
  · cases h
  · cases h
  · next noWhere noType =>
    rw [Place.asHead_eq settled (name_has_no_child formed hc) noWhere noType] at kindAt
    split at h
    · cases h
    · cases h
    · next noCallee noParameters =>
      have behind : 2 ≤ index := by
        have first : index ≠ 0 := noCallee
        have second : index ≠ 1 := noParameters
        omega
      exact .doClause holds kindAt behind

/-- A callee that has parts and takes no other place is none that a definition looks at. -/
theorem unseen_in_callee {scope : ScopeKind} {back : List Nat} (formed : parent.Formed)
    (settled : Place.asBareCallee scope parent.kind = .bareCallee scope)
    (found : root.descend? path = some parent) (holds : root.CalleeAt path)
    (hc : parent.children[index]? = some child) : root.Unseen (path ++ index :: back) := by
  have shape := formed.shape
  obtain ⟨noField, noParentheses⟩ := Place.asBareCallee_eq settled
  refine .callee holds ?_
  rw [Node.kindAt?_eq found, Option.any_some]
  unfold Kind.isCallee
  split
  · next kind => exact absurd kind (name_has_no_child formed hc)
  · next kind =>
    rw [kind] at shape
    rw [shape] at hc
    cases hc
  · next kind => exact absurd kind noField
  · next kind => exact absurd kind noParentheses
  · rfl

/-- A child that is not looked at stands in a position that is skipped. -/
theorem skipped_of_not_inside {leaf : Node} {back : List Nat} {place : Place}
    (formed : parent.Formed) (fits : place.Fits parent.kind)
    (settled : place.settle parent.kind = place) (found : root.descend? path = some parent)
    (holds : place.Holds root path) (hc : parent.children[index]? = some child)
    (below : child.descend? back = some leaf) (name : leaf.kind = .identifier)
    (h : place.inside parent index child = none) : root.Skipped (path ++ index :: back) := by
  have shape := formed.shape
  have closed (h : ∃ front i back, path = front ++ i :: back ∧
      (root.kindAt? front).any Kind.isClosed) : root.Skipped (path ++ index :: back) := by
    obtain ⟨front, i, middle, rfl, isClosed⟩ := h
    rw [List.append_assoc]
    exact .inl (.closed isClosed)
  cases place with
  | value => exact .inl (exempt_in_value formed found hc below name h)
  | target kind => exact .inl (exempt_in_target formed found holds hc h)
  | constant =>
    have kind : parent.kind = .assignment := fits
    rw [kind] at shape
    exact absurd h (assigned_looks (no_name_between formed shape hc below name))
  | parameter =>
    simp only [Place.inside] at h
    split at h
    · cases h
    · cases h
    · next kind =>
      rw [kind] at shape
      have side := no_name_between formed shape hc below name
      split at h
      · omega
      · cases h
    · next splat =>
      rw [splat] at shape
      simp [only_child shape hc] at h
    · cases h
  | typeVariable =>
    simp only [Place.inside] at h
    split at h
    · next kind =>
      rw [kind] at shape
      have side := no_name_between formed shape hc below name
      split at h
      · omega
      · cases h
    · cases h
  | head scope => exact .inr (unseen_in_head formed settled found holds hc h)
  | bareCallee scope => exact .inr (unseen_in_callee formed settled found holds hc)
  | typeName kind | declared kind | imported | selected => exact closed holds
  | _ => cases h

/-- A name is read or bound in the place it takes, unless its position is exempt. -/
theorem own_name {node : Node} {place : Place} (name : node.kind = .identifier)
    (fits : place.Fits node.kind) (settled : place.settle node.kind = place)
    (holds : place.Holds root path) :
    place.own node = some ⟨.read, node.span⟩ ∨ place.own node = some ⟨.bind, node.span⟩ ∨
      root.Exempt path := by
  have misfit {kind : Kind} (other : kind ≠ .identifier) (h : node.kind = kind) : False :=
    other (h.symm.trans name)
  cases place with
  | value => exact .inl (by simp [Place.own, name])
  | quoted => exact .inr (.inr (.quoted holds))
  | target _ | parameter | typeVariable | head _ | typeName _ | bareCallee _ =>
    exact .inr (.inl (by simp [Place.own, name]))
  | declared _ => exact .inr (.inl rfl)
  | callee scope => exact (misfit (by decide) (Place.asCallee_eq settled)).elim
  | imported | selected =>
    obtain ⟨front, index, back, rfl, closed⟩ := holds
    exact .inr (.inr (.closed closed))
  | constant | signature _ | bindings | loop | clause | handler | typeHead _ =>
    exact (misfit (by decide) fits).elim

theorem le_mentionsAll {site : Site} {place inner : Place} {nodes : List Node} {start : Nat}
    (hc : nodes[index]? = some child)
    (h : place.inside parent (start + index) child = some inner) :
    child.mentions site inner ≤ mentionsAll site place parent start nodes := by
  induction nodes generalizing start index with
  | nil => cases hc
  | cons node nodes ih =>
    rw [mentionsAll_cons]
    cases index with
    | zero =>
      cases hc
      rw [Nat.add_zero] at h
      rw [h, Option.elim_some]
      omega
    | succ index =>
      have shift : start + (index + 1) = start + 1 + index := by omega
      rw [shift] at h
      have rest := @ih index (start + 1) hc h
      omega

/-- The way down to a name: as long as every node on it is looked at, the name is mentioned. -/
theorem mentioned_or_skipped {node leaf : Node} {place : Place} {back : List Nat}
    (formed : node.Formed) (fits : place.Fits node.kind) (found : root.descend? path = some node)
    (holds : place.Holds root path) (below : node.descend? back = some leaf)
    (name : leaf.kind = .identifier) :
    node.mentions ⟨.read, leaf.span⟩ place + node.mentions ⟨.bind, leaf.span⟩ place ≠ 0 ∨
      root.Skipped (path ++ back) := by
  induction back generalizing node path place with
  | nil =>
    cases below
    have settledFits := Place.settle_fits fits
    have settled := Place.settle_settle place leaf.kind
    have settledHolds := Place.settle_holds (Node.kindAt?_eq found) holds
    rw [Node.mentions_eq, Node.mentions_eq, List.append_nil]
    rcases own_name name settledFits settled settledHolds with read | bound | exempt
    · left
      rw [read, Option.elim_some]
      simp only [Site.tally, if_true]
      omega
    · left
      rw [bound, Option.elim_some, Option.elim_some]
      simp only [Site.tally, if_true]
      omega
    · exact .inr (.inl exempt)
  | cons index back ih =>
    obtain ⟨child, hc, below⟩ := Option.bind_eq_some_iff.mp below
    have childAt := Node.descend?_snoc found hc
    have settledFits := Place.settle_fits fits
    have settled := Place.settle_settle place node.kind
    have settledHolds := Place.settle_holds (Node.kindAt?_eq found) holds
    cases hi : (place.settle node.kind).inside node index child with
    | none =>
      exact .inr (skipped_of_not_inside formed settledFits settled found settledHolds hc below name hi)
    | some inner =>
      have deeper := ih (formed.child child (List.mem_of_getElem? hc))
        (Place.inside_fits formed settledFits hc hi) childAt
        (Place.inside_holds formed settledFits settled found settledHolds hc hi) below
      rw [List.append_assoc] at deeper
      refine deeper.imp ?_ id
      intro mentioned
      rw [← Nat.zero_add index] at hi
      have read := @le_mentionsAll node child index ⟨.read, leaf.span⟩ _ _ _ _ hc hi
      have bound := @le_mentionsAll node child index ⟨.bind, leaf.span⟩ _ _ _ _ hc hi
      rw [Node.mentions_eq, Node.mentions_eq]
      omega

end Positions

end CellBindings
