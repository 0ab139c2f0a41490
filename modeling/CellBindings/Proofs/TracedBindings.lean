import CellBindings.Proofs.IndependentStatements
import CellBindings.Proofs.MentionedNames
import CellBindings.Proofs.TargetWalks

/-!
Every binding leaves a trace. A name that resolves to a binding is assigned without a record, so
what is recorded depends on the frames. At every point of a run each name that a frame binds has
been recorded as a local, and from this an assignment leaves its names recorded whatever they
resolve to.
-/

namespace CellBindings

/-- The points of a run: what is still to be carried out at the place it has reached, and the state
there. A run ends early at an effect that fails. -/
inductive Effect.Reaches (document : Text) :
    List Effect → Explorer → List Effect → Explorer → Prop where
  | here {effects e} : Reaches document effects e effects e
  | next {effect effects e after todo f} : effect.run document e = (.ok (), after) →
      Reaches document effects after todo f → Reaches document (effect :: effects) e todo f
  | fail {effect effects e after error} : effect.run document e = (.error error, after) →
      Reaches document (effect :: effects) e [] after
  | enter {kind body effects e todo f} :
      Reaches document body { e with scopes := e.scopes.push kind } todo f →
      Reaches document (.scoped kind body :: effects) e todo f

inductive Effect.Binds (document : Text) : Effect → Text → Prop where
  | assign {kind span name} : document.slice? span = some name →
      Binds document (.assign kind span) (kind.key name)
  | bind {span name} : document.slice? span = some name → Binds document (.bind span) name
  | update {operator span symbol name} : document.slice? operator = some symbol →
      symbol.head? ≠ some '.' → document.slice? span = some name →
      Binds document (.update operator (some span)) name

section Points

variable {document name : Text} {effect : Effect} {effects more todo : List Effect}
  {e f next : Explorer}

/-- What holds at the start of a run, and is kept by every effect and by entering a frame, holds at
all its points. -/
theorem Effect.Reaches.keeps {P : Explorer → Prop}
    (point : Effect.Reaches document effects e todo f)
    (step : ∀ (effect : Effect) e, P e → P (effect.run document e).2)
    (push : ∀ e kind, P e → P { e with scopes := e.scopes.push kind }) (start : P e) : P f := by
  induction point with
  | here => exact start
  | @next effect _ e _ _ _ ran _ ih =>
    have kept := step effect e start
    rw [ran] at kept
    exact ih kept
  | @fail effect _ e _ _ ran =>
    have kept := step effect e start
    rwa [ran] at kept
  | enter _ ih => exact ih (push _ _ start)

theorem Effect.Reaches.backed (point : Effect.Reaches document effects e todo f)
    (start : e.Backed) : f.Backed :=
  point.keeps (fun effect _ => run_backed effect) (fun _ kind backed => backed.push kind) start

/-- The effects before a point of the same frame have been carried out. -/
theorem Effect.Reaches.append (h : Effect.runAll document effects e = (.ok (), f)) :
    Effect.Reaches document (effects ++ more) e more f := by
  induction effects generalizing e with
  | nil =>
    rw [Effect.runAll] at h
    cases h
    exact .here
  | cons effect effects ih =>
    rw [Effect.runAll] at h
    cases ran : effect.run document e with
    | mk outcome after =>
      rw [ran] at h
      cases outcome with
      | error error => cases h
      | ok => exact .next ran (ih h)

/-- An effect that binds a name succeeds, and then the name is recorded. -/
theorem Effect.Binds.traces (binds : effect.Binds document name) (backed : e.Backed)
    (named : name ≠ wildcard) :
    ∃ next, effect.run document e = (.ok (), next) ∧ next.analysis.Traces name := by
  cases binds with
  | assign spelled =>
    rw [Effect.run, Effect.withText, spelled]
    exact ⟨_, rfl, assign_traces backed named⟩
  | bind spelled =>
    rw [Effect.run, Effect.withText, spelled]
    refine ⟨_, rfl, .inr ?_⟩
    simp [Explorer.bind, named, Analysis.addLocal]
  | update symbol plain spelled =>
    rw [Effect.run, symbol]
    simp only [plain, if_false, Effect.withText, spelled]
    exact ⟨_, rfl, assign_traces backed named⟩

theorem Effect.runAll_append_ok
    (h : Effect.runAll document (effects ++ more) e = (.ok (), next)) :
    ∃ mid, Effect.runAll document effects e = (.ok (), mid) ∧
      Effect.runAll document more mid = (.ok (), next) := by
  rw [Effect.runAll_append] at h
  cases ran : Effect.runAll document effects e with
  | mk outcome mid =>
    rw [ran] at h
    cases outcome with
    | error error => cases h
    | ok => exact ⟨mid, rfl, h⟩

theorem runAll_backed (ok : Effect.runAll document effects e = (.ok (), next))
    (backed : e.Backed) : next.Backed := by
  have kept := @Effect.runAll_keeps document _ e effects (fun effect _ _ => run_backed effect)
    backed
  rwa [ok] at kept

theorem runAll_grows (ok : Effect.runAll document effects e = (.ok (), next)) :
    e.analysis.Grows next.analysis := by
  have grown := (Effect.runAll_extends document effects e).analysis
  rwa [ok] at grown

/-- Among effects that all succeed, one that binds a name leaves it recorded. -/
theorem runAll_traces (ok : Effect.runAll document effects e = (.ok (), next)) (backed : e.Backed)
    (member : effect ∈ effects) (binds : effect.Binds document name) (named : name ≠ wildcard) :
    next.analysis.Traces name := by
  obtain ⟨before, after, rfl⟩ := List.append_of_mem member
  obtain ⟨mid, first, rest⟩ := Effect.runAll_append_ok ok
  obtain ⟨last, ran, traces⟩ := binds.traces (runAll_backed first backed) named
  rw [Effect.runAll, ran] at rest
  exact traces.grow (runAll_grows rest)

theorem value_of_name {node : Node} (isName : node.kind = .identifier) :
    node.reading.roles.value = [.use node.span] := by
  obtain ⟨_, span, children⟩ := node
  cases isName
  rfl

theorem compoundAssignment_effects {left operator right : Node} {others : List Node} (span : Span)
    (isName : left.kind = .identifier) :
    Node.effects false ⟨.compoundAssignment, span, left :: operator :: right :: others⟩ =
      right.effects false ++ [.use left.span, .update operator.span (some left.span)] := by
  have read := value_of_name isName
  change Reading.compoundAssignment
    (left.reading :: operator.reading :: right.reading :: Node.readings others) =
      right.reading.roles.value ++ _
  simp [Reading.compoundAssignment, read, isName]

/-- A name that is updated by a plain operator is read, and then recorded as bound. -/
theorem compoundAssignment_traces {left operator right : Node} {others : List Node}
    {mid : Explorer} {symbol : Text} (span : Span)
    (ok : Effect.runAll document (right.effects false) e = (.ok (), mid)) (backed : e.Backed)
    (isName : left.kind = .identifier) (spelled : document.slice? left.span = some name)
    (named : name ≠ wildcard) (operates : document.slice? operator.span = some symbol)
    (plain : symbol.head? ≠ some '.') :
    ∃ next, Effect.runAll document (Node.effects false
        ⟨.compoundAssignment, span, left :: operator :: right :: others⟩) e = (.ok (), next) ∧
      name ∈ next.analysis.usages.map (·.name) ∧ next.analysis.Traces name := by
  have binds : Effect.Binds document (.update operator.span (some left.span)) name :=
    .update operates plain spelled
  have backed : (mid.use name left.span).Backed := (runAll_backed ok backed).use
  obtain ⟨next, ran, traces⟩ := binds.traces backed named
  refine ⟨next, ?_, ?_, traces⟩
  · have read : Effect.run document (.use left.span) mid = (.ok (), mid.use name left.span) := by
      rw [Effect.run, Effect.withText, spelled]
    rw [compoundAssignment_effects span isName, Effect.runAll_append, ok]
    simp only [Effect.runAll, read, ran]
  · have grows := (Effect.run_extends document (.update operator.span (some left.span))
      (mid.use name left.span)).analysis
    rw [ran] at grows
    apply (grows.usages.map _).subset
    simp [Explorer.use, named, Analysis.addUsage]

end Points

/-- At every point of a run that starts outside all frames, each name that a frame binds has been
recorded as a local. So from there every effect that binds a name leaves it recorded, an assignment
all the names it assigns, and an updating assignment by a plain operator leaves its name recorded
both as read and as bound. -/
theorem bindings_leave_trace (document : Text) (root : Node) (quoted : Bool) {todo : List Effect}
    {f : Explorer}
    (point : Effect.Reaches document (root.effects quoted) ⟨.empty, .empty⟩ todo f) :
    (∀ frame ∈ f.scopes.frames, ∀ name ∈ frame.bound, name ∈ f.analysis.locals.map (·.name)) ∧
    (∀ effect name, Effect.Binds document effect name → name ≠ wildcard →
      ∃ next, effect.run document f = (.ok (), next) ∧ next.analysis.Traces name) ∧
    (∀ kind left operator right others next, Effect.runAll document
        (Reading.assignment kind (Node.readings (left :: operator :: right :: others))) f =
          (.ok (), next) →
      ∀ target name, Walk.targets.Finds left target → document.slice? target.span = some name →
        name ≠ wildcard → next.analysis.Traces (kind.key name)) ∧
    ∀ span left operator right others mid symbol name,
      Effect.runAll document (Node.effects false right) f = (.ok (), mid) →
      left.kind = .identifier → document.slice? left.span = some name → name ≠ wildcard →
      document.slice? operator.span = some symbol → symbol.head? ≠ some '.' →
      ∃ next, Effect.runAll document (Node.effects false
          ⟨.compoundAssignment, span, left :: operator :: right :: others⟩) f = (.ok (), next) ∧
        name ∈ next.analysis.usages.map (·.name) ∧ next.analysis.Traces name := by
  have start : Explorer.Backed ⟨.empty, .empty⟩ := by
    intro frame hf
    cases hf
  have backed := point.backed start
  refine ⟨backed, ?_, ?_, ?_⟩
  · intro effect name binds named
    exact binds.traces backed named
  · intro kind left operator right others next ok target name found spelled named
    have assigned := found.assigned kind
    refine runAll_traces ok backed ?_ (.assign spelled) (key_ne_wildcard named)
    simp [Node.readings, Reading.assignment, found.notSignature, assigned]
  · intro span left operator right others mid symbol name ok isName spelled named operates plain
    exact compoundAssignment_traces span ok backed isName spelled named operates plain

/-- `y` is updated in a function, inside a `let` in which it is bound already. -/
def updateInside : Text :=
  ['l', 'e', 't', ' ', 'y', '\n', 'f', '(', ')', ' ', '=', ' ', '(', 'y', ' ', '+', '=', ' ', 'x',
    ')', '\n', 'e', 'n', 'd']

def innerUpdate : Node :=
  ⟨.compoundAssignment, ⟨13, 19⟩,
    [.leaf .identifier ⟨13, 14⟩, .leaf .operator ⟨15, 17⟩, .leaf .identifier ⟨18, 19⟩]⟩

def updateInsideTree : Node :=
  ⟨.sourceFile, ⟨0, 24⟩,
    [⟨.letStatement, ⟨0, 24⟩,
      [⟨.letBindings, ⟨4, 5⟩, [.leaf .identifier ⟨4, 5⟩]⟩,
        ⟨.block, ⟨6, 20⟩,
          [⟨.assignment, ⟨6, 20⟩,
            [⟨.callExpression, ⟨6, 9⟩, [.leaf .identifier ⟨6, 7⟩, .leaf .argumentList ⟨7, 9⟩]⟩,
              .leaf .operator ⟨10, 11⟩,
              ⟨.parenthesizedExpression, ⟨12, 20⟩, [innerUpdate]⟩]⟩]⟩]⟩]⟩

def insideFunction : Explorer :=
  ⟨⟨[.empty .function, ⟨.letBlock, [['f'], ['y']], []⟩]⟩,
    ⟨[], [], [⟨['y'], ⟨4, 5⟩⟩, ⟨['f'], ⟨6, 7⟩⟩]⟩⟩

/-- The update records no binding of its own, since there is one already. -/
theorem update_inside_traced :
    Effect.Reaches updateInside (updateInsideTree.effects false) ⟨.empty, .empty⟩
      (innerUpdate.effects false) insideFunction ∧
    ∃ next, Effect.runAll updateInside (innerUpdate.effects false) insideFunction =
        (.ok (), next) ∧
      ['y'] ∈ next.analysis.usages.map (·.name) ∧ next.analysis.Traces ['y'] ∧
      next.analysis.locals = insideFunction.analysis.locals := by
  have point : Effect.Reaches updateInside (updateInsideTree.effects false) ⟨.empty, .empty⟩
      (innerUpdate.effects false) insideFunction :=
    .enter (.next rfl (.next rfl (.enter .here)))
  obtain ⟨-, -, -, updates⟩ := bindings_leave_trace updateInside updateInsideTree false point
  obtain ⟨next, ran, read, traced⟩ := updates ⟨13, 19⟩ (.leaf .identifier ⟨13, 14⟩)
    (.leaf .operator ⟨15, 17⟩) (.leaf .identifier ⟨18, 19⟩) [] _ ['+', '='] ['y'] rfl rfl rfl
    (by decide) rfl (by decide)
  have locals : (Effect.runAll updateInside (innerUpdate.effects false)
      insideFunction).2.analysis.locals = insideFunction.analysis.locals := by decide
  refine ⟨point, next, ran, read, traced, ?_⟩
  rw [← locals, show Effect.runAll _ (innerUpdate.effects false) _ = _ from ran]

end CellBindings
