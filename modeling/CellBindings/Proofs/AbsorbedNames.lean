import CellBindings.Proofs.NodeRuns
import CellBindings.Proofs.TracedBindings

/-!
Names that are absorbed. A name that some frame binds keeps that binding through everything that
binds by assignment alone: loops and `try` blocks put frames of their own above it, destructuring
and updates assign to it, and none of them records it anew. Only explicit binders and global
declarations can change what it stands for.
-/

namespace CellBindings

inductive Effect.Implicit : Effect → Prop where
  | use {span} : Implicit (.use span)
  | assign {kind span} : Implicit (.assign kind span)
  | define {kind span} : kind.IsDeclared → Implicit (.define kind span)
  | update {operator target} : Implicit (.update operator target)
  | inFrame {kind body} : (∀ effect ∈ body, Implicit effect) → Implicit (.scoped kind body)

/-- The construct has explicit binders or declares names. A `catch` has one if a name stands right
behind it, and an assignment if it is a short function definition. -/
def Node.Binds (node : Node) : Prop :=
  node.kind.bindsNames = true ∨ node.kind = .globalStatement ∨
    (node.kind = .catchClause ∧ ∃ part ∈ node.children, part.kind = .identifier) ∨
    (node.kind = .assignment ∧ (node.child? 0).any (·.reading.isSignature) = true)

instance (node : Node) : Decidable node.Binds := inferInstanceAs (Decidable (_ ∨ _ ∨ _ ∨ _))

theorem Node.child_mem_preorder {root node child : Node} (h : node ∈ root.preorder)
    (member : child ∈ node.children) : child ∈ root.preorder :=
  (Node.preorder_sublist h).subset
    (Node.mem_preorder.mpr (.inr ⟨child, member, Node.mem_preorder.mpr (.inl rfl)⟩))

/-- A tree without explicit binders and declarations has implicit effects only. -/
theorem effects_implicit {node : Node} (h : ∀ n ∈ node.preorder, ¬ n.Binds) (quoted : Bool) :
    ∀ effect ∈ node.effects quoted, effect.Implicit := by
  have admits : Law.Admits ⟨Effect.Implicit, fun _ => True, False⟩ :=
    ⟨fun _ _ => .use, fun _ _ _ _ => .assign, fun _ _ hk _ => .define hk, fun _ _ _ _ => .update,
      fun _ none => none.elim⟩
  apply effects_obey admits node fun _ _ => trivial
  intro n hn
  constructor
  · intro _ scope body inside
    exact .inFrame inside
  · rintro (binds | ⟨isAssignment, heads⟩ | ⟨_, clause, member, isCatch, part, inside, isName⟩)
    · exact h n hn (.inl binds)
    · refine h n hn (.inr (.inr (.inr ⟨isAssignment, ?_⟩)))
      rw [readings_eq, List.head?_map, Option.any_map] at heads
      rw [Node.child?, ← List.head?_eq_getElem?]
      exact heads
    · -- the clause is a node of the tree itself
      rw [readings_eq] at member
      obtain ⟨caught, below, rfl⟩ := List.mem_map.mp member
      rw [Node.reading_children] at inside
      obtain ⟨name, here, rfl⟩ := List.mem_map.mp inside
      rw [Node.reading_kind] at isCatch isName
      refine h caught (Node.child_mem_preorder hn below) ?_
      exact .inr (.inr (.inl ⟨isCatch, name, here, isName⟩))
  · intro global
    exact absurd (.inr (.inl global)) (h n hn)
  · intro isMacro
    exact absurd (.inl (by rw [isMacro]; rfl)) (h n hn)

namespace ScopeStack

variable {scopes after : ScopeStack} {name other : Text}

theorem resolve_push (scopes : ScopeStack) (kind : ScopeKind) (name : Text) :
    (scopes.push kind).resolve name = scopes.resolve name := by
  simp [resolve, push, resolveIn, ScopeFrame.empty]

/-- Binding one name does not change what another one stands for. -/
theorem resolve_bind (h : scopes.bind? other = some after) (apart : other ≠ name) :
    after.resolve name = scopes.resolve name := by
  obtain ⟨frames⟩ := scopes
  cases frames with
  | nil => cases h
  | cons frame rest =>
    cases h
    simp [resolve, resolveIn, ScopeFrame.bind, apart.symm]

end ScopeStack

/-- The name is bound, and since an earlier state it has neither become a local nor been defined as
something that is assigned. -/
structure Explorer.Absorbs (name : Text) (before after : Explorer) : Prop where
  bound : after.scopes.resolve name = .bound
  locals : ∃ new, after.analysis.locals = before.analysis.locals ++ new ∧ ∀ o ∈ new, o.name ≠ name
  definitions : ∀ d, (name, d) ∈ after.analysis.definitions →
    d.kind ∈ [.variableName, .constantName, .functionName, .macroName] →
    (name, d) ∈ before.analysis.definitions

theorem DefinitionKind.IsDeclared.not_assigned {kind : DefinitionKind} (h : kind.IsDeclared) :
    kind ∉ [.variableName, .constantName, .functionName, .macroName] := by
  rcases h with rfl | rfl | rfl | rfl | rfl <;> decide

section Absorbing

variable {document name other : Text} {kind : DefinitionKind} {span : Span} {effect : Effect}
  {effects todo : List Effect} {before e f : Explorer}

namespace Explorer.Absorbs

theorem refl (h : e.scopes.resolve name = .bound) : e.Absorbs name e :=
  ⟨h, ⟨[], by simp, by simp⟩, fun _ known _ => known⟩

theorem use (h : before.Absorbs name e) : before.Absorbs name (e.use other span) := by
  unfold Explorer.use
  split
  · exact h
  · exact ⟨h.bound, h.locals, h.definitions⟩

theorem push (h : before.Absorbs name e) (kind : ScopeKind) :
    before.Absorbs name { e with scopes := e.scopes.push kind } :=
  ⟨by rw [ScopeStack.resolve_push]; exact h.bound, h.locals, h.definitions⟩

/-- A definition of another name, or one that is no assignment. -/
theorem redefine (h : before.Absorbs name e) (allowed : other = name → kind.IsDeclared) :
    before.Absorbs name { e with analysis := e.analysis.define other kind span } := by
  refine ⟨h.bound, h.locals, ?_⟩
  intro d defined assigned
  rcases mem_insert defined with same | known
  · obtain ⟨rfl, rfl⟩ := Prod.mk.inj same
    exact absurd assigned (allowed rfl).not_assigned
  · exact h.definitions d known assigned

theorem define (h : before.Absorbs name e) (declared : kind.IsDeclared) :
    before.Absorbs name (e.define other kind span) := by
  unfold Explorer.define
  split
  · exact h
  · exact h.redefine fun _ => declared

/-- An assignment to the name finds it bound. One to another name leaves it alone. -/
theorem assign (h : before.Absorbs name e) : before.Absorbs name (e.assign other kind span) := by
  have apart {found : Resolution} (resolved : e.scopes.resolve other = found)
      (unbound : found ≠ .bound) : other ≠ name := by
    rintro rfl
    exact unbound (resolved.symm.trans h.bound)
  unfold Explorer.assign
  split
  · exact h
  · split
    · exact h
    · next global => exact h.redefine fun same => absurd same (apart global (by decide))
    · next free =>
      have other_name := apart free (by decide)
      split
      · next scopes taken =>
        obtain ⟨new, grown, others⟩ := h.locals
        refine ⟨?_, ⟨new ++ [⟨other, span⟩], ?_, ?_⟩, h.definitions⟩
        · rw [ScopeStack.resolve_bind taken other_name]
          exact h.bound
        · simp [Analysis.addLocal, grown]
        · simpa [or_imp, forall_and, other_name] using others
      · exact h.redefine fun same => absurd same other_name

end Explorer.Absorbs

/-- One case for each effect. Inside a frame of its own the name is found in the frames around it,
and outside that frame the stack is as before. -/
theorem Effect.Implicit.absorbs (h : effect.Implicit) (document : Text)
    (he : before.Absorbs name e) : before.Absorbs name (effect.run document e).2 := by
  induction h generalizing e with
  | use =>
    rw [Effect.run]
    exact withText_keeps he fun _ => he.use
  | assign =>
    rw [Effect.run]
    exact withText_keeps he fun _ => he.assign
  | define declared =>
    rw [Effect.run]
    exact withText_keeps he fun _ => he.define declared
  | update => exact update_keeps he fun _ _ => he.assign
  | @inFrame kind body _ ih =>
    have inside := Effect.runAll_keeps (fun effect hb _ => ih effect hb) (he.push kind)
    have scopes := @Effect.scoped_scopes document kind body e (Effect.runAll_extends document body)
    refine ⟨by rw [scopes]; exact he.bound, ?_, ?_⟩
    · rw [Effect.run]
      exact inside.locals
    · rw [Effect.run]
      exact inside.definitions

/-- At every point of a run of implicit effects, those inside frames included. -/
theorem Effect.Reaches.absorbs (point : Effect.Reaches document effects e todo f)
    (implicit : ∀ effect ∈ effects, effect.Implicit) (start : before.Absorbs name e) :
    before.Absorbs name f := by
  induction point with
  | here => exact start
  | @next effect _ _ _ _ _ ran _ ih =>
    obtain ⟨first, rest⟩ := List.forall_mem_cons.mp implicit
    have kept := first.absorbs document start
    rw [ran] at kept
    exact ih rest kept
  | @fail effect _ _ _ _ ran =>
    have kept := (implicit effect List.mem_cons_self).absorbs document start
    rwa [ran] at kept
  | @enter kind _ _ _ _ _ _ ih =>
    cases implicit _ List.mem_cons_self with
    | inFrame inside => exact ih inside (start.push kind)

end Absorbing

/-- A name that is bound where a tree without explicit binders and declarations stands. Exploring
the tree leaves it bound, adds no local of that name, and defines it at most as a type, a module or
an import. The same holds at every point on the way, also if the exploration fails there. -/
theorem bound_name_absorbed (document name : Text) (node : Node) (quoted : Bool) (e : Explorer)
    (bound : e.scopes.resolve name = .bound) (implicit : ∀ n ∈ node.preorder, ¬ n.Binds) :
    (∀ next, Effect.runAll document (node.effects quoted) e = (.ok (), next) →
      e.Absorbs name next) ∧
    ∀ todo f, Effect.Reaches document (node.effects quoted) e todo f → e.Absorbs name f := by
  have points : ∀ todo f, Effect.Reaches document (node.effects quoted) e todo f →
      e.Absorbs name f :=
    fun _ _ point => point.absorbs (effects_implicit implicit quoted) (.refl bound)
  refine ⟨?_, points⟩
  intro next ok
  have last := @Effect.Reaches.append document (node.effects quoted) [] e next ok
  rw [List.append_nil] at last
  exact points [] next last

def tryUpdate : Text :=
  ['t', 'r', 'y', '\n', 'x', ',', ' ', 'y', ' ', '=', ' ', 'z', '\n', 'c', 'a', 't', 'c', 'h', '\n',
    'x', ' ', '+', '=', ' ', 'y', '\n', 'e', 'n', 'd']

/-- In a function that binds the first name, only the other one becomes a local. -/
theorem try_update_absorbed :
    let e : Explorer := ⟨⟨[⟨.function, [['x']], []⟩]⟩, .empty⟩
    (e.scopes.resolve ['x'] = .bound ∧ ∀ n ∈ (parse tryUpdate).preorder, ¬ n.Binds) ∧
    ∃ next, Effect.runAll tryUpdate ((parse tryUpdate).effects false) e = (.ok (), next) ∧
      next.analysis.localNames = [['y']] ∧ e.Absorbs ['x'] next := by
  intro e
  have bound : e.scopes.resolve ['x'] = .bound := by decide
  have implicit : ∀ n ∈ (parse tryUpdate).preorder, ¬ n.Binds := by decide +kernel
  have locals :
      (Effect.runAll tryUpdate ((parse tryUpdate).effects false) e).2.analysis.localNames =
        [['y']] := by decide +kernel
  obtain ⟨next, ran⟩ := parse_runs (Node.mem_preorder.mpr (.inl rfl)) e
  rw [ran] at locals
  exact ⟨⟨bound, implicit⟩, next, ran, locals,
    (bound_name_absorbed tryUpdate ['x'] (parse tryUpdate) false e bound implicit).1 next ran⟩

end CellBindings
