import CellBindings.Cell
import CellBindings.Proofs.EffectLaws
import CellBindings.Proofs.ScopeDiscipline

/-!
Names do not leave the place where they belong. Inside a frame, where nothing is declared global,
only types, modules and imports are defined for other cells: what is assigned becomes a local.
Outside all frames there are no locals, unless a construct opens a frame or declares them.
-/

namespace CellBindings

theorem explore_eq_ok {document : Text} {enclosing : ScopeStack} {quoted : Bool} {node : Node}
    {analysis : Analysis} (h : explore document enclosing quoted node = .ok analysis) :
    (Effect.runAll document (node.effects quoted) ⟨enclosing, .empty⟩).2.analysis = analysis := by
  unfold explore at h
  split at h
  · cases h
  · split at h
    · next result =>
      rw [result]
      exact Except.ok.inj h
    · cases h

theorem eq_ok_of_toOption {ε α : Type} {result : Except ε α} {value : α}
    (h : result.toOption = some value) : result = .ok value := by
  cases result with
  | error error => cases h
  | ok other =>
    cases h
    rfl

section InsideFrames

inductive Effect.Confines : Effect → Prop where
  | use {span} : Confines (.use span)
  | assign {kind span} : Confines (.assign kind span)
  | bind {span} : Confines (.bind span)
  | define {kind span} : kind.IsDeclared → Confines (.define kind span)
  | update {operator target} : Confines (.update operator target)
  | inFrame {kind body} : (∀ effect ∈ body, Confines effect) → Confines (.scoped kind body)

theorem effects_confine {node : Node} (h : ∀ n ∈ node.preorder, n.kind ≠ .globalStatement)
    (quoted : Bool) : ∀ effect ∈ node.effects quoted, effect.Confines := by
  have admits : Law.Admits ⟨Effect.Confines, fun _ => True, True⟩ :=
    ⟨fun _ _ => .use, fun _ _ _ _ => .assign, fun _ _ hk _ => .define hk, fun _ _ _ _ => .update,
      fun _ _ _ => .bind⟩
  apply effects_obey admits node fun _ _ => trivial
  intro n hn
  constructor
  · intro _ scope body inside
    exact .inFrame inside
  · intro _
    trivial
  · intro global
    exact absurd global (h n hn)
  · intro _ name _ _
    exact .assign

/-- There is a frame to bind in, no frame has a name declared global, and nothing that is assigned
has been defined. -/
structure Explorer.Confined (e : Explorer) : Prop where
  framed : e.scopes.frames ≠ []
  globals : ∀ frame ∈ e.scopes.frames, frame.globals = []
  declared : ∀ entry ∈ e.analysis.definitions, entry.2.kind.IsDeclared

theorem resolveIn_ne_global {frames : List ScopeFrame} (h : ∀ frame ∈ frames, frame.globals = [])
    (name : Text) : ScopeStack.resolveIn name frames ≠ .global := by
  induction frames with
  | nil =>
    rw [ScopeStack.resolveIn]
    decide
  | cons frame frames ih =>
    rw [ScopeStack.resolveIn, h frame List.mem_cons_self]
    split
    · decide
    · simpa using ih fun other ho => h other (List.mem_cons_of_mem _ ho)

namespace Explorer.Confined

variable {e : Explorer} {name : Text} {kind : DefinitionKind} {span : Span}

/-- The innermost frame takes the name. -/
theorem bind? (h : e.Confined) (name : Text) (span : Span) :
    ∃ scopes, e.scopes.bind? name = some scopes ∧
      Confined ⟨scopes, e.analysis.addLocal name span⟩ := by
  obtain ⟨⟨frames⟩, analysis⟩ := e
  obtain ⟨framed, globals, declared⟩ := h
  cases frames with
  | nil => exact absurd rfl framed
  | cons frame frames =>
    refine ⟨⟨frame.bind name :: frames⟩, rfl, by simp, ?_, declared⟩
    intro other ho
    rcases List.mem_cons.mp ho with rfl | ho
    · simp [ScopeFrame.bind, globals frame List.mem_cons_self]
    · exact globals other (List.mem_cons_of_mem _ ho)

theorem use (h : e.Confined) : (e.use name span).Confined := by
  unfold Explorer.use
  split
  · exact h
  · exact ⟨h.framed, h.globals, h.declared⟩

theorem define (h : e.Confined) (hk : kind.IsDeclared) : (e.define name kind span).Confined := by
  unfold Explorer.define
  split
  · exact h
  · refine ⟨h.framed, h.globals, ?_⟩
    intro entry he
    rcases mem_insert he with rfl | he
    · exact hk
    · exact h.declared entry he

theorem bind (h : e.Confined) : (e.bind name span).Confined := by
  obtain ⟨scopes, bound, confined⟩ := h.bind? name span
  unfold Explorer.bind
  split
  · exact h
  · rw [bound]
    exact confined

theorem assign (h : e.Confined) : (e.assign name kind span).Confined := by
  obtain ⟨scopes, bound, confined⟩ := h.bind? name span
  unfold Explorer.assign
  split
  · exact h
  · split
    · exact h
    · next global => exact absurd global (resolveIn_ne_global h.globals name)
    · rw [bound]
      exact confined

theorem push (h : e.Confined) (kind : ScopeKind) :
    Confined { e with scopes := e.scopes.push kind } := by
  refine ⟨List.cons_ne_nil _ _, ?_, h.declared⟩
  intro frame hf
  rcases List.mem_cons.mp hf with rfl | hf
  · rfl
  · exact h.globals frame hf

end Explorer.Confined

/-- One case for each effect. What is assigned inside a frame of its own is confined to that frame,
and outside it the stack is as before. -/
theorem Effect.Confines.run {effect : Effect} (h : effect.Confines) (document : Text)
    {e : Explorer} (he : e.Confined) : (effect.run document e).2.Confined := by
  induction h generalizing e with
  | use =>
    rw [Effect.run]
    exact withText_keeps he fun _ => he.use
  | assign =>
    rw [Effect.run]
    exact withText_keeps he fun _ => he.assign
  | bind =>
    rw [Effect.run]
    exact withText_keeps he fun _ => he.bind
  | define hk =>
    rw [Effect.run]
    exact withText_keeps he fun _ => he.define hk
  | update => exact update_keeps he fun _ _ => he.assign
  | @inFrame kind body _ ih =>
    have inside := Effect.runAll_keeps (fun effect hb _ => ih effect hb) (he.push kind)
    have scopes := @Effect.scoped_scopes document kind body e (Effect.runAll_extends document body)
    constructor
    · rw [scopes]
      exact he.framed
    · rw [scopes]
      exact he.globals
    · rw [Effect.run]
      exact inside.declared

end InsideFrames

section OutsideFrames

def Effect.Frameless : Effect → Prop
  | .bind _ | .scoped _ _ => False
  | _ => True

def Node.OpensFrame (node : Node) : Prop := Reading.OpensFrame node.kind (readings node.children)

instance (node : Node) : Decidable node.OpensFrame :=
  inferInstanceAs (Decidable (Reading.OpensFrame _ _))

theorem Kind.opensFrame_of_bindsNames {kind : Kind} (h : kind.bindsNames = true) :
    kind.opensFrame = true ∨ kind = .localStatement := by
  cases kind <;> first | exact .inl rfl | exact .inr rfl | cases h

/-- All binders but those of a local declaration have a frame to stand in. -/
theorem Reading.BindsNames.opensFrame {kind : Kind} {children : List Reading}
    (h : BindsNames kind children) : OpensFrame kind children ∨ kind = .localStatement := by
  rcases h with binds | heads | ⟨rfl, _⟩
  · rcases Kind.opensFrame_of_bindsNames binds with opens | isLocal
    · exact .inl (.inl opens)
    · exact .inr isLocal
  · exact .inl (.inr heads)
  · exact .inl (.inl rfl)

theorem effects_frameless {node : Node}
    (h : ∀ n ∈ node.preorder, ¬ n.OpensFrame ∧ n.kind ≠ .localStatement) (quoted : Bool) :
    ∀ effect ∈ node.effects quoted, effect.Frameless := by
  have admits : Law.Admits ⟨Effect.Frameless, fun _ => True, False⟩ :=
    ⟨fun _ _ => trivial, fun _ _ _ _ => trivial, fun _ _ _ _ => trivial, fun _ _ _ _ => trivial,
      fun _ none => none.elim⟩
  apply effects_obey admits node fun _ _ => trivial
  intro n hn
  obtain ⟨closed, notLocal⟩ := h n hn
  constructor
  · intro opens
    exact absurd opens closed
  · intro binds
    rcases binds.opensFrame with opens | isLocal
    · exact closed opens
    · exact notLocal isLocal
  · intro _ _ _
    trivial
  · intro _ _ _ _
    trivial

structure Explorer.Unframed (e : Explorer) : Prop where
  scopes : e.scopes = .empty
  locals : e.analysis.locals = []

namespace Explorer.Unframed

variable {e : Explorer} {name : Text} {kind : DefinitionKind} {span : Span}

theorem use (h : e.Unframed) : (e.use name span).Unframed := by
  unfold Explorer.use
  split
  · exact h
  · exact ⟨h.scopes, h.locals⟩

theorem define (h : e.Unframed) : (e.define name kind span).Unframed := by
  unfold Explorer.define
  split
  · exact h
  · exact ⟨h.scopes, h.locals⟩

/-- With no frame to bind in, the name is defined. -/
theorem assign (h : e.Unframed) : (e.assign name kind span).Unframed := by
  have defined : Unframed { e with analysis := e.analysis.define name kind span } :=
    ⟨h.scopes, h.locals⟩
  unfold Explorer.assign
  split
  · exact h
  · rw [h.scopes] at defined ⊢
    exact defined

theorem declareGlobal (h : e.Unframed) : (e.declareGlobal name).Unframed := by
  constructor
  · simp [Explorer.declareGlobal, h.scopes, ScopeStack.declareGlobal?, ScopeStack.empty]
  · exact h.locals

end Explorer.Unframed

theorem Effect.Frameless.run {effect : Effect} (h : effect.Frameless) (document : Text)
    {e : Explorer} (he : e.Unframed) : (effect.run document e).2.Unframed := by
  induction effect using Effect.induct with
  | use span =>
    rw [Effect.run]
    exact withText_keeps he fun _ => he.use
  | assign kind span =>
    rw [Effect.run]
    exact withText_keeps he fun _ => he.assign
  | bind span => exact h.elim
  | define kind span =>
    rw [Effect.run]
    exact withText_keeps he fun _ => he.define
  | declareGlobal span =>
    rw [Effect.run]
    exact withText_keeps he fun _ => he.declareGlobal
  | update operator target => exact update_keeps he fun _ _ => he.assign
  | inFrame kind body => exact h.elim

end OutsideFrames

/-- A tree without global declarations, explored inside a frame where nothing is declared global,
defines only types, modules and imports. A tree without constructs that open a frame and without
local declarations, explored outside all frames, has no locals. -/
theorem locals_confined (document : Text) (node : Node) (quoted : Bool) :
    ((∀ n ∈ node.preorder, n.kind ≠ .globalStatement) →
      ∀ enclosing : ScopeStack, enclosing.frames ≠ [] →
      (∀ frame ∈ enclosing.frames, frame.globals = []) →
      ∀ analysis, explore document enclosing quoted node = .ok analysis →
      ∀ entry ∈ analysis.definitions, entry.2.kind.IsDeclared) ∧
    ((∀ n ∈ node.preorder, ¬ n.OpensFrame ∧ n.kind ≠ .localStatement) →
      ∀ analysis, explore document .empty quoted node = .ok analysis → analysis.locals = []) := by
  constructor
  · intro noGlobals enclosing framed globals analysis ok
    have start : Explorer.Confined ⟨enclosing, .empty⟩ := ⟨framed, globals, by simp [Analysis.empty]⟩
    have last := Effect.runAll_keeps
      (fun effect he _ => (effects_confine noGlobals quoted effect he).run document) start
    rw [← explore_eq_ok ok]
    exact last.declared
  · intro closed analysis ok
    have last := Effect.runAll_keeps
      (fun effect he _ => (effects_frameless closed quoted effect he).run document)
      (⟨rfl, rfl⟩ : Explorer.Unframed ⟨.empty, .empty⟩)
    rw [← explore_eq_ok ok]
    exact last.locals

def assignThenImport : Text :=
  ['x', ' ', '=', ' ', 'y', '\n', 'i', 'm', 'p', 'o', 'r', 't', ' ', 'A']

/-- In a function the name that is assigned is a local and only the import is defined. At the top
level both are defined and there are no locals. -/
theorem assign_then_import_confined :
    let node := parse assignThenImport
    (∀ n ∈ node.preorder,
      n.kind ≠ .globalStatement ∧ ¬ n.OpensFrame ∧ n.kind ≠ .localStatement) ∧
    (∃ analysis, explore assignThenImport ⟨[.empty .function]⟩ false node = .ok analysis ∧
      analysis.localNames = [['x']] ∧ analysis.definitionNames = [['A']] ∧
      ∀ entry ∈ analysis.definitions, entry.2.kind.IsDeclared) ∧
    ∃ analysis, explore assignThenImport .empty false node = .ok analysis ∧
      analysis.definitionNames = [['A'], ['x']] ∧ analysis.locals = [] := by
  intro node
  have parts : ∀ n ∈ node.preorder,
      n.kind ≠ .globalStatement ∧ ¬ n.OpensFrame ∧ n.kind ≠ .localStatement := by decide +kernel
  have inside : explore assignThenImport ⟨[.empty .function]⟩ false node = .ok
      ⟨[(['A'], ⟨.importedName, ⟨13, 14⟩⟩)], [⟨['y'], ⟨4, 5⟩⟩], [⟨['x'], ⟨0, 1⟩⟩]⟩ :=
    eq_ok_of_toOption (by decide +kernel)
  have outside : explore assignThenImport .empty false node = .ok
      ⟨[(['x'], ⟨.variableName, ⟨0, 1⟩⟩), (['A'], ⟨.importedName, ⟨13, 14⟩⟩)],
        [⟨['y'], ⟨4, 5⟩⟩], []⟩ := eq_ok_of_toOption (by decide +kernel)
  obtain ⟨confined, unframed⟩ := locals_confined assignThenImport node false
  refine ⟨parts, ⟨_, inside, by decide, by decide, ?_⟩, _, outside, by decide, ?_⟩
  · exact confined (fun n hn => (parts n hn).1) _ (by simp) (by simp [ScopeFrame.empty]) _ inside
  · exact unframed (fun n hn => (parts n hn).2) _ outside

end CellBindings
