import CellBindings.Proofs.PlacedNodes

/-!
Walks to the names of a left side. What is assigned, what a global declaration declares, and what an
explicit binder binds are names that lie under the same kinds of nodes, but not under quite the
same: each of the three goes its own way. A walk says which kinds are entered, and the three agree
on a name that all of them find.
-/

namespace CellBindings

/-- Which nodes a walk enters on its way to names. -/
structure Walk where
  /-- Kinds of which it enters all children. -/
  all : Kind → Bool
  /-- Kinds of which it enters the first child only. -/
  first : Kind → Bool

namespace Walk

inductive Finds (walk : Walk) : Node → Node → Prop where
  | name {node} : node.kind = .identifier → Finds walk node node
  | all {node child name} : walk.all node.kind = true → child ∈ node.children →
      Finds walk child name → Finds walk node name
  | first {node child name} : walk.first node.kind = true → node.children.head? = some child →
      Finds walk child name → Finds walk node name

def targets : Walk where
  all
    | .tupleExpression | .parenthesizedExpression | .keywordArguments => true
    | _ => false
  first
    | .typedExpression | .splatExpression | .curlyExpression => true
    | _ => false

def declared : Walk where
  all
    | .tupleExpression | .parenthesizedExpression => true
    | _ => false
  first
    | .typedExpression | .splatExpression | .assignment | .compoundAssignment => true
    | _ => false

def binders : Walk where
  all
    | .argumentList | .keywordArguments | .parameterList | .tupleExpression
    | .parenthesizedExpression => true
    | _ => false
  first
    | .typedExpression | .splatExpression | .keywordArgument | .assignment => true
    | _ => false

def avoiding (walk : Walk) (kinds : List Kind) : Walk where
  all kind := walk.all kind && !kinds.contains kind
  first kind := walk.first kind && !kinds.contains kind

section Effects

variable {walk : Walk} {kind : Kind} {node name child : Node}

theorem targets_all (h : targets.all kind = true) :
    kind = .tupleExpression ∨ kind = .parenthesizedExpression ∨ kind = .keywordArguments := by
  unfold targets at h
  dsimp only at h
  split at h <;> simp at h ⊢

theorem targets_first (h : targets.first kind = true) :
    kind = .typedExpression ∨ kind = .splatExpression ∨ kind = .curlyExpression := by
  unfold targets at h
  dsimp only at h
  split at h <;> simp at h ⊢

theorem declared_all (h : declared.all kind = true) :
    kind = .tupleExpression ∨ kind = .parenthesizedExpression := by
  unfold declared at h
  dsimp only at h
  split at h <;> simp at h ⊢

theorem declared_first (h : declared.first kind = true) :
    kind = .typedExpression ∨ kind = .splatExpression ∨ kind = .assignment ∨
      kind = .compoundAssignment := by
  unfold declared at h
  dsimp only at h
  split at h <;> simp at h ⊢

theorem binders_all (h : binders.all kind = true) :
    kind = .argumentList ∨ kind = .keywordArguments ∨ kind = .parameterList ∨
      kind = .tupleExpression ∨ kind = .parenthesizedExpression := by
  unfold binders at h
  dsimp only at h
  split at h <;> simp at h ⊢

theorem binders_first (h : binders.first kind = true) :
    kind = .typedExpression ∨ kind = .splatExpression ∨ kind = .keywordArgument ∨
      kind = .assignment := by
  unfold binders at h
  dsimp only at h
  split at h <;> simp at h ⊢

/-- A walk that enters more nodes finds more names. -/
theorem Finds.mono {wider : Walk} (all : ∀ kind, walk.all kind = true → wider.all kind = true)
    (first : ∀ kind, walk.first kind = true → wider.first kind = true)
    (found : walk.Finds node name) : wider.Finds node name := by
  induction found with
  | name isName => exact .name isName
  | all entered member _ ih => exact .all (all _ entered) member ih
  | first entered head _ ih => exact .first (first _ entered) head ih

theorem Finds.of_avoiding {kinds : List Kind} (found : (walk.avoiding kinds).Finds node name) :
    walk.Finds node name :=
  found.mono (fun _ entered => (Bool.and_eq_true_iff.mp entered).1)
    fun _ entered => (Bool.and_eq_true_iff.mp entered).1

/-- Declarations find the targets that stand under no property destructuring and no type
parameters. -/
theorem Finds.toDeclared
    (found : (targets.avoiding [.keywordArguments, .curlyExpression]).Finds node name) :
    declared.Finds node name := by
  refine found.mono ?_ ?_
  · intro kind entered
    obtain ⟨target, kept⟩ := Bool.and_eq_true_iff.mp entered
    rcases targets_all target with rfl | rfl | rfl
    · rfl
    · rfl
    · cases kept
  · intro kind entered
    obtain ⟨target, kept⟩ := Bool.and_eq_true_iff.mp entered
    rcases targets_first target with rfl | rfl | rfl
    · rfl
    · rfl
    · cases kept

/-- Binders find the targets that stand under no type parameters. -/
theorem Finds.toBinders (found : (targets.avoiding [.curlyExpression]).Finds node name) :
    binders.Finds node name := by
  refine found.mono ?_ ?_
  · intro kind entered
    obtain ⟨target, _⟩ := Bool.and_eq_true_iff.mp entered
    rcases targets_all target with rfl | rfl | rfl <;> rfl
  · intro kind entered
    obtain ⟨target, kept⟩ := Bool.and_eq_true_iff.mp entered
    rcases targets_first target with rfl | rfl | rfl
    · rfl
    · rfl
    · cases kept

/-- The head of a function has no targets. -/
theorem Finds.notSignature (found : targets.Finds node name) :
    node.reading.isSignature = false := by
  induction found with
  | @name node isName =>
    obtain ⟨_, span, children⟩ := node
    cases isName
    rfl
  | @all node _ _ entered _ _ _ =>
    obtain ⟨kind, span, children⟩ := node
    rcases targets_all entered with rfl | rfl | rfl <;> rfl
  | @first node child _ entered head _ ih =>
    obtain ⟨kind, span, children⟩ := node
    cases children with
    | nil => cases head
    | cons inner rest =>
      cases head
      rcases targets_first entered with rfl | rfl | rfl
      · exact ih
      · rfl
      · rfl

/-- A role that passes on the effects of the children that are entered has an effect for every name
that is found. -/
theorem Finds.mem (role : Reading → List Effect) (effect : Span → Effect)
    (names : ∀ node : Node, node.kind = .identifier → effect node.span ∈ role node.reading)
    (all : ∀ node child : Node, walk.all node.kind = true → child ∈ node.children →
      role child.reading ⊆ role node.reading)
    (first : ∀ node child : Node, walk.first node.kind = true → node.children.head? = some child →
      role child.reading ⊆ role node.reading)
    (found : walk.Finds node name) : effect name.span ∈ role node.reading := by
  induction found with
  | name isName => exact names _ isName
  | all entered member _ ih => exact all _ _ entered member ih
  | first entered head _ ih => exact first _ _ entered head ih

theorem subset_flatMap (role : Reading → List Effect) (h : child ∈ node.children) :
    role child.reading ⊆ (node.children.map Node.reading).flatMap role := by
  intro effect he
  exact List.mem_flatMap.mpr ⟨child.reading, List.mem_map_of_mem h, he⟩

theorem subset_flatMap_take (role : Reading → List Effect) (h : node.children.head? = some child) :
    role child.reading ⊆ ((node.children.map Node.reading).take 1).flatMap role := by
  have front : (node.children.map Node.reading).take 1 = [child.reading] := by
    cases all : node.children with
    | nil => simp [all] at h
    | cons first rest =>
      rw [all] at h
      cases h
      rfl
  rw [front, List.flatMap_singleton]
  exact List.Subset.refl _

/-- Every name that the walk to targets finds is assigned. -/
theorem Finds.assigned (found : targets.Finds node name) (kind : DefinitionKind) :
    .assign kind name.span ∈ node.reading.roles.target kind := by
  refine Finds.mem (·.roles.target kind) (.assign kind) ?_ ?_ ?_ found
  · rintro ⟨_, span, children⟩ rfl
    rw [reading_eq]
    exact List.mem_singleton.mpr rfl
  · rintro ⟨own, span, children⟩ child entered member
    have passed := subset_flatMap (·.roles.target kind) member
    rw [reading_eq]
    rcases targets_all entered with rfl | rfl | rfl <;> exact passed
  · rintro ⟨own, span, children⟩ child entered head
    have passed := subset_flatMap_take (·.roles.target kind) head
    rw [reading_eq]
    rcases targets_first entered with rfl | rfl | rfl
    · exact List.subset_append_of_subset_left _ passed
    · exact passed
    · exact passed

/-- Every name that the walk of declarations finds is declared global. -/
theorem Finds.declares (found : declared.Finds node name) :
    .declareGlobal name.span ∈ Reading.globalNames node.reading := by
  refine Finds.mem Reading.globalNames .declareGlobal ?_ ?_ ?_ found
  · rintro ⟨_, span, children⟩ rfl
    rw [reading_eq]
    simp [Reading.build, Reading.globalNames]
  · rintro ⟨own, span, children⟩ child entered member
    have passed := subset_flatMap Reading.globalNames member
    rw [reading_eq]
    rcases declared_all entered with rfl | rfl <;>
      simpa only [Reading.build, Reading.globalNames, Reading.allGlobalNames_eq] using passed
  · rintro ⟨own, span, children⟩ child entered head
    rw [reading_eq]
    cases children with
    | nil => cases head
    | cons first rest =>
      cases head
      rcases declared_first entered with rfl | rfl | rfl | rfl <;>
        simp only [Reading.build, Reading.globalNames, List.map_cons, List.Subset.refl]

/-- Every name that the walk of binders finds is bound. -/
theorem Finds.bound (found : binders.Finds node name) :
    .bind name.span ∈ node.reading.roles.parameter := by
  refine Finds.mem (·.roles.parameter) .bind ?_ ?_ ?_ found
  · rintro ⟨_, span, children⟩ rfl
    rw [reading_eq]
    exact List.mem_singleton.mpr rfl
  · rintro ⟨own, span, children⟩ child entered member
    have passed := subset_flatMap (·.roles.parameter) member
    rw [reading_eq]
    rcases binders_all entered with rfl | rfl | rfl | rfl | rfl <;> exact passed
  · rintro ⟨own, span, children⟩ child entered head
    have passed := subset_flatMap_take (·.roles.parameter) head
    rw [reading_eq]
    rcases binders_first entered with rfl | rfl | rfl | rfl
    · exact List.subset_append_of_subset_left _ passed
    · exact passed
    · exact List.subset_append_of_subset_right _ passed
    · exact List.subset_append_of_subset_right _ passed

end Effects

end Walk

end CellBindings
