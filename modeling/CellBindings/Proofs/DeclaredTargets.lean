import CellBindings.Proofs.NodeRuns
import CellBindings.Proofs.TracedBindings

/-!
Targets behind a declaration. A `global` declares the names that its own walk finds before the
assignment behind it is explored, and `let` and `local` bind the names that the walk of binders
finds. So the names that an assignment would assign are defined for other cells, or become locals of
the innermost frame, as far as the walks agree; under property destructuring, type parameters and
the heads of functions they do not.
-/

namespace CellBindings

open Effect (count countAll)

def Effect.binder? : Effect → Option Span
  | .bind span => some span
  | _ => none

def Effect.declared? : Effect → Option Span
  | .declareGlobal span => some span
  | _ => none

section Runs

variable {text name : Text} {effect : Effect} {before after effects : List Effect}
  {e next : Explorer} {span : Span}

theorem Effect.runAll_split
    (h : Effect.runAll text (before ++ effect :: after) e = (.ok (), next)) :
    ∃ mid last, Effect.runAll text before e = (.ok (), mid) ∧
      effect.run text mid = (.ok (), last) ∧ Effect.runAll text after last = (.ok (), next) := by
  obtain ⟨mid, first, rest⟩ := Effect.runAll_append_ok h
  rw [Effect.runAll] at rest
  cases ran : effect.run text mid with
  | mk outcome last =>
    rw [ran] at rest
    cases outcome with
    | error error => cases rest
    | ok => exact ⟨mid, last, first, ran, rest⟩

theorem Effect.runAll_scoped_ok {kind : ScopeKind}
    (h : Effect.runAll text [.scoped kind effects] e = (.ok (), next)) :
    ∃ inner, Effect.runAll text effects { e with scopes := e.scopes.push kind } = (.ok (), inner) ∧
      inner.analysis = next.analysis := by
  rw [Effect.runAll, Effect.run] at h
  cases ran : Effect.runAll text effects { e with scopes := e.scopes.push kind } with
  | mk outcome inner =>
    rw [ran] at h
    cases outcome with
    | error error => cases h
    | ok =>
      dsimp only at h
      rw [Effect.runAll] at h
      cases h
      exact ⟨inner, rfl, rfl⟩

theorem runAll_framed (ok : Effect.runAll text effects e = (.ok (), next))
    (framed : e.scopes.frames ≠ []) : next.scopes.frames ≠ [] := by
  have depth := (Effect.runAll_extends text effects e).scopes.depth
  rw [ok] at depth
  intro none
  apply framed
  apply List.length_eq_zero_iff.mp
  rw [← ScopeStack.depth, ← depth, ScopeStack.depth, none, List.length_nil]

theorem runAll_apart (ok : Effect.runAll text effects e = (.ok (), next)) :
    e.AddsOnlyCounted span (countAll ⟨.read, span⟩ effects)
      (countAll ⟨.bind, span⟩ effects + countAll ⟨.update, span⟩ effects) next := by
  have added := @runAll_addsOnlyCounted text span effects e
  rwa [ok] at added

theorem run_declareGlobal (spelled : text.slice? span = some name) (e : Explorer) :
    Effect.run text (.declareGlobal span) e = (.ok (), e.declareGlobal name) := by
  rw [Effect.run, Effect.withText, spelled]

theorem run_bind (spelled : text.slice? span = some name) (e : Explorer) :
    Effect.run text (.bind span) e = (.ok (), e.bind name span) := by
  rw [Effect.run, Effect.withText, spelled]

theorem run_assign {kind : DefinitionKind} (notMacro : kind ≠ .macroName)
    (spelled : text.slice? span = some name) (e : Explorer) :
    Effect.run text (.assign kind span) e = (.ok (), e.assign name kind span) := by
  simp only [Effect.run, Effect.withText, spelled, DefinitionKind.key_of_ne notMacro]

end Runs

theorem assignment_children {node left : Node} (formed : node.Formed)
    (assigns : node.kind = .assignment) (first : node.children.head? = some left) :
    ∃ operator right, node.children = [left, operator, right] := by
  have shape := formed.shape
  rw [assigns] at shape
  obtain ⟨_, operator, right, children, _⟩ := shape
  rw [children] at first
  cases first
  exact ⟨operator, right, children⟩

section Globals

variable {text name : Text} {before after effects : List Effect} {e next : Explorer}
  {span : Span} {frame : ScopeFrame}

/-- In the frame the name stands for the global one. -/
def ScopeFrame.Declares (name : Text) (frame : ScopeFrame) : Prop :=
  name ∈ frame.globals ∧ name ∉ frame.bound

theorem ScopeFrame.declares_declareGlobal (frame : ScopeFrame) (name : Text) :
    (frame.declareGlobal name).Declares name := by
  constructor
  · exact List.mem_insert_iff.mpr (.inl rfl)
  · simp [ScopeFrame.declareGlobal]

/-- A declared name stays so unless a binder names it. -/
theorem ScopeFrame.Declares.step {effect : Effect} {frame next : ScopeFrame}
    (free : ∀ span, effect = .bind span → text.slice? span ≠ some name)
    (stepped : FrameStep text effect frame next) (h : frame.Declares name) :
    next.Declares name := by
  have bind {other : Text} (differs : other ≠ name) : (frame.bind other).Declares name := by
    constructor
    · exact List.mem_filter.mpr ⟨h.1, by simpa using differs.symm⟩
    · intro bound
      rcases List.mem_insert_iff.mp bound with same | bound
      · exact differs same.symm
      · exact h.2 bound
  cases stepped with
  | same => exact h
  | bind binds spelled =>
    apply bind
    rintro rfl
    exact free _ binds spelled
  | adopt _ undeclared =>
    apply bind
    rintro rfl
    exact undeclared h.1
  | declare _ _ =>
    constructor
    · exact List.mem_insert_iff.mpr (.inr h.1)
    · intro bound
      exact h.2 (List.mem_filter.mp bound).1

theorem inside_declareGlobal (framed : e.scopes.frames ≠ []) :
    (e.declareGlobal name).Inside (ScopeFrame.Declares name) := by
  obtain ⟨frame, outer, frames⟩ := List.exists_cons_of_ne_nil framed
  refine ⟨frame.declareGlobal name, outer, ?_, frame.declares_declareGlobal name⟩
  simp [Explorer.declareGlobal, ScopeStack.declareGlobal?, frames]

/-- An assignment to a name that the innermost frame declares defines it, and no local is noted. -/
theorem assign_declared {kind : DefinitionKind} (h : e.Inside (ScopeFrame.Declares name))
    (named : name ≠ wildcard) :
    name ∈ (e.assign name kind span).analysis.definitions.map (·.1) ∧
      (e.assign name kind span).analysis.locals = e.analysis.locals := by
  obtain ⟨frame, outer, frames, global, unbound⟩ := h
  have resolved : e.scopes.resolve name = .global := by
    simp [ScopeStack.resolve, frames, ScopeStack.resolveIn, global, unbound]
  simp only [Explorer.assign, named, if_false, resolved]
  exact ⟨mem_keys_insert name _ _, rfl⟩

/-- Behind a declaration the name stays declared as long as no binder names it. -/
theorem runAll_declares {declared : Span}
    (ok : Effect.runAll text (before ++ .declareGlobal declared :: after) e = (.ok (), next))
    (framed : e.scopes.frames ≠ []) (spelled : text.slice? declared = some name)
    (free : ∀ span, .bind span ∈ after → text.slice? span ≠ some name) :
    next.Inside (ScopeFrame.Declares name) := by
  obtain ⟨start, mid, first, declare, rest⟩ := Effect.runAll_split ok
  rw [run_declareGlobal spelled] at declare
  obtain rfl := congrArg Prod.snd declare
  have kept := @runAll_inside text after _ (ScopeFrame.Declares name) ?_
    (inside_declareGlobal (runAll_framed first framed))
  · rwa [rest] at kept
  · intro effect member frame next stepped
    apply ScopeFrame.Declares.step ?_ stepped
    rintro span rfl
    exact free span member

/-- A name that is declared where it is assigned: it is defined, and no local is noted there if
nothing else mentions the place. -/
theorem runAll_defines {kind : DefinitionKind}
    (ok : Effect.runAll text (before ++ .assign kind span :: after) e = (.ok (), next))
    (inside : ∀ mid, Effect.runAll text before e = (.ok (), mid) →
      mid.Inside (ScopeFrame.Declares name))
    (notMacro : kind ≠ .macroName) (spelled : text.slice? span = some name)
    (named : name ≠ wildcard)
    (single : countAll ⟨.bind, span⟩ (before ++ .assign kind span :: after) +
      countAll ⟨.update, span⟩ (before ++ .assign kind span :: after) ≤ 1) :
    name ∈ next.analysis.definitions.map (·.1) ∧
      AddsApart span e.analysis.locals next.analysis.locals := by
  obtain ⟨mid, _, front, ran, back⟩ := Effect.runAll_split ok
  rw [run_assign notMacro spelled] at ran
  obtain rfl := congrArg Prod.snd ran
  obtain ⟨defined, unnoted⟩ := @assign_declared name mid span kind (inside mid front) named
  simp only [countAll_append, countAll_cons, count_assign, Site.tally_self] at single
  constructor
  · exact (runAll_grows back).keys.subset defined
  · have noted := (@runAll_apart _ _ _ _ span front).locals (by omega)
    rw [← unnoted] at noted
    exact noted.trans ((runAll_apart back).locals (by omega))

/-- The effects of a global declaration in front of an assignment. -/
theorem globalStatement_effects {g c left operator right : Node}
    (declares : g.kind = .globalStatement)
    (child : c ∈ g.children) (assigns : c.kind = .assignment)
    (shape : c.children = [left, operator, right]) (plain : left.reading.isSignature = false) :
    ∃ first last, g.effects false =
      first ++ Reading.globalNames c.reading ++ right.reading.roles.value ++
        left.reading.roles.target .variableName ++ last := by
  obtain ⟨_, span, children⟩ := g
  cases declares
  obtain ⟨before, after, rfl⟩ := List.append_of_mem child
  have value : c.reading.roles.value =
      right.reading.roles.value ++ left.reading.roles.target .variableName := by
    obtain ⟨_, own, parts⟩ := c
    cases assigns
    cases shape
    rw [reading_eq]
    simp [Reading.build, Reading.valueEffects, Reading.assignment, plain]
  have effects : Node.effects false ⟨.globalStatement, span, before ++ c :: after⟩ =
      Reading.globalStatement ((before ++ c :: after).map Node.reading) := by
    rw [Node.effects, if_neg (by decide), reading_eq]
    rfl
  refine ⟨Reading.globalStatement (before.map Node.reading),
    Reading.globalStatement (after.map Node.reading), ?_⟩
  simp [effects, Reading.globalStatement, assigns, value]

end Globals

/-- A `global` in front of an assignment, explored in any state with a frame. Exploring succeeds. A
name that is assigned becomes a key of the definitions, and no local is noted where it is assigned,
if the name stands somewhere on the left side under no property destructuring and no type
parameters, and no explicit binder of the same frame names it. -/
theorem global_targets_defined (text : Text) {g c left : Node} (member : g ∈ (parse text).preorder)
    (declares : g.kind = .globalStatement) (child : c ∈ g.children) (assigns : c.kind = .assignment)
    (first : c.children.head? = some left) (e : Explorer) (framed : e.scopes.frames ≠ []) :
    ∃ next, Effect.runAll text (g.effects false) e = (.ok (), next) ∧
      ∀ target other name, Walk.targets.Finds left target →
        (Walk.targets.avoiding [.keywordArguments, .curlyExpression]).Finds left other →
        text.slice? target.span = some name → text.slice? other.span = some name →
        name ≠ wildcard →
        (∀ span ∈ (g.effects false).filterMap Effect.binder?, text.slice? span ≠ some name) →
        name ∈ next.analysis.definitions.map (·.1) ∧
          AddsApart target.span e.analysis.locals next.analysis.locals := by
  obtain ⟨next, ok⟩ := parse_runs member e
  refine ⟨next, ok, ?_⟩
  intro target other name found elsewhere spelled named' named free
  have single := (parse_mentions_le member target.span).2
  have formed := (parse_formed text).within member
  obtain ⟨operator, right, shape⟩ := assignment_children (formed.child c child) assigns first
  obtain ⟨before, after, effects⟩ :=
    globalStatement_effects declares child assigns shape found.notSignature
  have declaring : Walk.declared.Finds c other :=
    .first (by rw [assigns]; rfl) first elsewhere.toDeclared
  obtain ⟨names, others, hn⟩ := List.append_of_mem declaring.declares
  obtain ⟨targets, rest, ht⟩ := List.append_of_mem (found.assigned .variableName)
  have split : g.effects false =
      (before ++ names ++ .declareGlobal other.span ::
        (others ++ right.reading.roles.value ++ targets)) ++
          .assign .variableName target.span :: (rest ++ after) := by
    rw [effects, hn, ht]
    simp
  rw [split] at ok single free
  refine runAll_defines ok ?_ (by decide) spelled named single
  intro mid front
  refine runAll_declares front framed named' ?_
  intro span bound
  apply free
  refine List.mem_filterMap.mpr ⟨.bind span, ?_, rfl⟩
  exact List.mem_append_left _ (List.mem_append_right _ (List.mem_cons_of_mem _ bound))

section Paths

variable {α : Type} {root node parent : Node} {path : List Nat}

theorem Node.mem_of_descend? (found : root.descend? path = some node) : node ∈ root.preorder := by
  induction path generalizing root with
  | nil =>
    rw [Node.descend?] at found
    cases found
    exact Node.mem_preorder.mpr (.inl rfl)
  | cons index path ih =>
    rw [Node.descend?] at found
    obtain ⟨child, here, below⟩ := Option.bind_eq_some_iff.mp found
    exact Node.mem_preorder.mpr (.inr ⟨child, List.mem_of_getElem? here, ih below⟩)

/-- The child of a node that has been reached, with what is known of it. -/
theorem Node.child_of_descend? {f : Node → α} {index : Nat} {a : α}
    (found : root.descend? path = some parent)
    (known : (root.descend? (path ++ [index])).map f = some a) :
    ∃ child, parent.children[index]? = some child ∧
      root.descend? (path ++ [index]) = some child ∧ f child = a := by
  obtain ⟨child, below, same⟩ := Option.map_eq_some_iff.mp known
  refine ⟨child, ?_, below, same⟩
  rw [Node.descend?_append, found] at below
  simpa [Node.descend?, Node.child?] using below

end Paths

def globalTuple : Text :=
  ['g', 'l', 'o', 'b', 'a', 'l', ' ', '(', 'a', ',', ' ', 'b', ':', ':', 'T', ')', ' ', '=', ' ',
    'c']

def boundBefore : Explorer := ⟨⟨[⟨.letBlock, [['b']], []⟩]⟩, .empty⟩

/-- The declaration overrides the binding. -/
theorem global_tuple_defined :
    ∃ g ∈ (parse globalTuple).preorder, g.kind = .globalStatement ∧
      ∃ next, Effect.runAll globalTuple (g.effects false) boundBefore = (.ok (), next) ∧
        ['b'] ∈ next.analysis.definitions.map (·.1) ∧
        AddsApart ⟨11, 12⟩ [] next.analysis.locals := by
  have root : ((parse globalTuple).descend? [0]).map
      (fun g => (g.kind, (g.effects false).filterMap Effect.binder?)) =
        some (.globalStatement, []) := by decide +kernel
  obtain ⟨g, atG, shape⟩ := Option.map_eq_some_iff.mp root
  obtain ⟨declares, binders⟩ := Prod.mk.inj shape
  obtain ⟨c, child, atC, assigns⟩ := @Node.child_of_descend? _ _ _ _ Node.kind 0 .assignment atG
    (by decide +kernel)
  obtain ⟨left, first, atLeft, isTuple⟩ := @Node.child_of_descend? _ _ _ _ Node.kind 0
    .tupleExpression atC (by decide +kernel)
  obtain ⟨typed, second, atTyped, isTyped⟩ := @Node.child_of_descend? _ _ _ _ Node.kind 1
    .typedExpression atLeft (by decide +kernel)
  obtain ⟨name, inner, _, shape⟩ := @Node.child_of_descend? _ _ _ _
    (fun n => (n.kind, n.span)) 0 (.identifier, ⟨11, 12⟩) atTyped (by decide +kernel)
  obtain ⟨isName, span⟩ := Prod.mk.inj shape
  have member := Node.mem_of_descend? atG
  obtain ⟨next, ok, defined⟩ := global_targets_defined globalTuple member declares
    (List.mem_of_getElem? child) assigns (by rw [List.head?_eq_getElem?, first]) boundBefore
    (by decide)
  have elsewhere : (Walk.targets.avoiding [.keywordArguments, .curlyExpression]).Finds left name :=
    .all (by rw [isTuple]; rfl) (List.mem_of_getElem? second)
      (.first (by rw [isTyped]; rfl) (by rw [List.head?_eq_getElem?, inner]) (.name isName))
  have spelled : globalTuple.slice? name.span = some ['b'] := by
    rw [span]
    decide
  obtain ⟨key, apart⟩ := defined name name ['b'] elsewhere.of_avoiding elsewhere spelled spelled
    (by decide) (by simp [binders])
  rw [span] at apart
  exact ⟨g, member, declares, next, ok, key, apart⟩

def globalFunction : Text :=
  ['l', 'e', 't', '\n', 'g', 'l', 'o', 'b', 'a', 'l', ' ', 'f', '(', 'x', ')', ' ', '=', ' ', 'x',
    '\n', 'e', 'n', 'd']

/-- The declaration does not find the name of the function: it becomes a local. -/
theorem global_function_lost :
    ∃ analysis, analyzeCell globalFunction .standard = .ok analysis ∧
      ['f'] ∉ analysis.definitions.map (·.1) ∧ ⟨['f'], ⟨11, 12⟩⟩ ∈ analysis.locals := by
  have answer : (analyzeCell globalFunction .standard).toOption =
      some ⟨[], [⟨['x'], ⟨18, 19⟩⟩], [⟨['f'], ⟨11, 12⟩⟩, ⟨['x'], ⟨13, 14⟩⟩]⟩ := by
    decide +kernel
  exact ⟨_, eq_ok_of_toOption answer, by decide, by decide⟩

section Binders

variable {text name : Text} {before after : List Effect} {e f next : Explorer} {span : Span}

def Node.binders (node : Node) : List Node :=
  match node.kind with
  | .localStatement => node.children
  | .letStatement => (node.children.find? (·.kind == .letBindings)).toList.flatMap (·.children)
  | _ => []

/-- A bound name stays so unless it is declared global. -/
theorem bound_step {effect : Effect} {frame next : ScopeFrame}
    (free : ∀ span, effect = .declareGlobal span → text.slice? span ≠ some name)
    (stepped : FrameStep text effect frame next) (h : name ∈ frame.bound) : name ∈ next.bound := by
  cases stepped with
  | same => exact h
  | bind _ _ => exact List.mem_insert_iff.mpr (.inr h)
  | adopt _ _ => exact List.mem_insert_iff.mpr (.inr h)
  | declare declares spelled =>
    refine List.mem_filter.mpr ⟨h, ?_⟩
    rw [bne_iff_ne]
    rintro rfl
    exact free _ declares spelled

/-- A name is bound in a frame: it is noted as a local there, and stays bound unless it is declared
global later on. -/
theorem runAll_binds
    (ok : Effect.runAll text (before ++ .bind span :: after) e = (.ok (), next))
    (framed : e.scopes.frames ≠ []) (spelled : text.slice? span = some name)
    (named : name ≠ wildcard) :
    (∃ new, next.analysis.locals = e.analysis.locals ++ new ∧ ⟨name, span⟩ ∈ new) ∧
      ((∀ span, .declareGlobal span ∈ after → text.slice? span ≠ some name) →
        next.Inside fun frame => name ∈ frame.bound) := by
  obtain ⟨mid, _, first, ran, rest⟩ := Effect.runAll_split ok
  rw [run_bind spelled] at ran
  obtain rfl := congrArg Prod.snd ran
  constructor
  · obtain ⟨early, noted⟩ := (runAll_grows first).locals
    obtain ⟨late, others⟩ := (runAll_grows rest).locals
    refine ⟨early ++ [⟨name, span⟩] ++ late, ?_, by simp⟩
    simp only [Explorer.bind, named, if_false, Analysis.addLocal] at others
    rw [← others, ← noted]
    simp
  · intro free
    obtain ⟨frame, outer, frames⟩ := List.exists_cons_of_ne_nil (runAll_framed first framed)
    have start : (mid.bind name span).Inside fun frame => name ∈ frame.bound := by
      refine ⟨frame.bind name, outer, ?_, List.mem_insert_iff.mpr (.inl rfl)⟩
      simp [Explorer.bind, named, ScopeStack.bind?, frames]
    have kept := @runAll_inside text after _ (fun frame => name ∈ frame.bound) ?_ start
    · rwa [rest] at kept
    · intro effect member frame next stepped
      apply bound_step ?_ stepped
      rintro span rfl
      exact free span member

/-- The effects of a `let` or `local` have those of each of its binders among them, inside the
frame of the `let`. -/
theorem binder_effects {g c : Node} (binder : c ∈ g.binders) : ∃ first last,
    g.kind = .localStatement ∧ g.effects false = first ++ (c.reading.roles.parameter ++ last) ∨
      g.effects false = [.scoped .letBlock (first ++ (c.reading.roles.parameter ++ last))] := by
  obtain ⟨kind, span, children⟩ := g
  have effects : Node.effects false ⟨kind, span, children⟩ =
      Reading.valueEffects kind span (children.map Node.reading) := by
    rw [Node.effects, if_neg (by decide), reading_eq]
    rfl
  unfold Node.binders at binder
  dsimp only at binder
  split at binder
  · obtain ⟨before, after, rfl⟩ := List.append_of_mem binder
    refine ⟨Reading.parameters (before.map Node.reading),
      Reading.parameters (after.map Node.reading), .inl ⟨rfl, ?_⟩⟩
    simp [effects, Reading.valueEffects, Reading.parameters]
  · obtain ⟨bindings, found, member⟩ := List.mem_flatMap.mp binder
    obtain ⟨before, after, split⟩ := List.append_of_mem member
    have found : children.find? (·.kind == .letBindings) = some bindings := by simpa using found
    refine ⟨Reading.parameters (before.map Node.reading),
      Reading.parameters (after.map Node.reading) ++
        Reading.firstValue .block (children.map Node.reading), .inr ?_⟩
    have kinds : (·.kind == .letBindings) ∘ Node.reading = (·.kind == .letBindings) :=
      funext fun child => by simp
    have same : (children.map Node.reading).find? (·.kind == .letBindings) =
        some bindings.reading := by
      rw [List.find?_map, kinds, found, Option.map_some]
    simp [effects, Reading.valueEffects, Reading.letStatement, same, Reading.parameters, split]
  · cases binder

/-- Exploring a `let` or `local` arrives at each of its binders, inside a frame. A `let` brings the
frame with it. -/
theorem binder_reached {g c : Node} {last : Explorer} (binder : c ∈ g.binders)
    (ok : Effect.runAll text (g.effects false) e = (.ok (), last))
    (framed : g.kind = .localStatement → e.scopes.frames ≠ []) :
    ∃ todo f next, Effect.Reaches text (g.effects false) e (c.reading.roles.parameter ++ todo) f ∧
      f.scopes.frames ≠ [] ∧
      Effect.runAll text c.reading.roles.parameter f = (.ok (), next) ∧
      next.analysis.Grows last.analysis := by
  obtain ⟨first, todo, ⟨isLocal, effects⟩ | effects⟩ := binder_effects binder
  · rw [effects] at ok ⊢
    obtain ⟨f, early, rest⟩ := Effect.runAll_append_ok ok
    obtain ⟨next, bound, late⟩ := Effect.runAll_append_ok rest
    exact ⟨todo, f, next, .append early, runAll_framed early (framed isLocal), bound,
      runAll_grows late⟩
  · rw [effects] at ok ⊢
    obtain ⟨inner, ran, same⟩ := Effect.runAll_scoped_ok ok
    obtain ⟨f, early, rest⟩ := Effect.runAll_append_ok ran
    obtain ⟨next, bound, late⟩ := Effect.runAll_append_ok rest
    refine ⟨todo, f, next, .enter (.append early), runAll_framed early ?_, bound, ?_⟩
    · simp [ScopeStack.push]
    · rw [← same]
      exact runAll_grows late

theorem countAll_bind_pos {effects : List Effect} (member : .bind span ∈ effects) :
    0 < countAll ⟨.bind, span⟩ effects := by
  obtain ⟨before, after, rfl⟩ := List.append_of_mem member
  simp only [countAll_append, countAll_cons, count_bind, Site.tally_self]
  omega

theorem binder_mentions {g c : Node} (binder : c ∈ g.binders)
    (member : .bind span ∈ c.reading.roles.parameter) :
    0 < countAll ⟨.bind, span⟩ (g.effects false) := by
  have pos := countAll_bind_pos member
  obtain ⟨first, last, ⟨-, effects⟩ | effects⟩ := binder_effects binder
  · simp only [effects, countAll_append]
    omega
  · simp only [effects, countAll_append, countAll_cons, countAll_nil, count_scoped]
    omega

end Binders

/-- A `let` with an assignment among its binders, explored in any state, or such a `local` in a
state with a frame. Exploring succeeds, and it arrives at the assignment inside a frame. There a
name that would be assigned, and that stands under no type parameters, is noted as a local at its
place and bound in the innermost frame, unless it is declared global again; and its place is not
recorded as read. -/
theorem binder_targets_bound (text : Text) {g c left : Node} (member : g ∈ (parse text).preorder)
    (binder : c ∈ g.binders) (assigns : c.kind = .assignment) (first : c.children.head? = some left)
    (e : Explorer) (framed : g.kind = .localStatement → e.scopes.frames ≠ []) :
    ∃ todo f next last,
      Effect.Reaches text (g.effects false) e (c.reading.roles.parameter ++ todo) f ∧
      f.scopes.frames ≠ [] ∧ Effect.runAll text c.reading.roles.parameter f = (.ok (), next) ∧
      Effect.runAll text (g.effects false) e = (.ok (), last) ∧
      next.analysis.Grows last.analysis ∧
      ∀ target name, (Walk.targets.avoiding [.curlyExpression]).Finds left target →
        text.slice? target.span = some name → name ≠ wildcard →
        (∃ new, next.analysis.locals = f.analysis.locals ++ new ∧ ⟨name, target.span⟩ ∈ new) ∧
        ((∀ span ∈ c.reading.roles.parameter.filterMap Effect.declared?,
            text.slice? span ≠ some name) →
          ∃ frame ∈ next.scopes.top?, name ∈ frame.bound) ∧
        AddsApart target.span e.analysis.usages last.analysis.usages := by
  obtain ⟨last, ok⟩ := parse_runs member e
  obtain ⟨todo, f, next, point, inside, bound, grows⟩ := binder_reached binder ok framed
  refine ⟨todo, f, next, last, point, inside, bound, ok, grows, ?_⟩
  intro target name found spelled named
  have finds : Walk.binders.Finds c target := .first (by rw [assigns]; rfl) first found.toBinders
  obtain ⟨before, after, split⟩ := List.append_of_mem finds.bound
  have pos := binder_mentions binder finds.bound
  have single := (parse_mentions_le member target.span).1
  have noted := bound
  rw [split] at noted
  obtain ⟨isLocal, stays⟩ := runAll_binds noted inside spelled named
  refine ⟨isLocal, ?_, (runAll_apart ok).usages (by omega)⟩
  intro free
  obtain ⟨frame, outer, frames, isBound⟩ := stays (by
    intro span declared
    apply free
    rw [split]
    exact List.mem_filterMap.mpr ⟨.declareGlobal span, by simp [declared], rfl⟩)
  exact ⟨frame, by simp [ScopeStack.top?, frames], isBound⟩

def letProperties : Text :=
  ['l', 'e', 't', ' ', '(', ';', ' ', 'a', ')', ' ', '=', ' ', 'c', '\n', 'e', 'n', 'd']

theorem mem_binders_of_let {g bindings c : Node} (isLet : g.kind = .letStatement)
    (first : g.children[0]? = some bindings) (kind : bindings.kind = .letBindings)
    (member : c ∈ bindings.children) : c ∈ g.binders := by
  obtain ⟨_, span, children⟩ := g
  cases isLet
  cases children with
  | nil => cases first
  | cons head rest =>
    cases first
    simpa [Node.binders, kind] using member

theorem let_properties_bound :
    ∃ g ∈ (parse letProperties).preorder, g.kind = .letStatement ∧ ∃ c ∈ g.binders,
      c.kind = .assignment ∧ ∃ todo f next,
        Effect.Reaches letProperties (g.effects false) ⟨.empty, .empty⟩
          (c.reading.roles.parameter ++ todo) f ∧
        Effect.runAll letProperties c.reading.roles.parameter f = (.ok (), next) ∧
        (∃ new, next.analysis.locals = f.analysis.locals ++ new ∧ ⟨['a'], ⟨7, 8⟩⟩ ∈ new) ∧
        ∃ frame ∈ next.scopes.top?, ['a'] ∈ frame.bound := by
  have root : ((parse letProperties).descend? [0]).map Node.kind = some .letStatement := by
    decide +kernel
  obtain ⟨g, atG, isLet⟩ := Option.map_eq_some_iff.mp root
  obtain ⟨bindings, front, atBindings, isBindings⟩ := @Node.child_of_descend? _ _ _ _ Node.kind 0
    .letBindings atG (by decide +kernel)
  obtain ⟨c, child, atC, shape⟩ := @Node.child_of_descend? _ _ _ _
    (fun n => (n.kind, n.reading.roles.parameter.filterMap Effect.declared?)) 0 (.assignment, [])
    atBindings (by decide +kernel)
  obtain ⟨assigns, undeclared⟩ := Prod.mk.inj shape
  obtain ⟨left, first, atLeft, isTuple⟩ := @Node.child_of_descend? _ _ _ _ Node.kind 0
    .tupleExpression atC (by decide +kernel)
  obtain ⟨properties, second, atProperties, isProperties⟩ := @Node.child_of_descend? _ _ _ _
    Node.kind 0 .keywordArguments atLeft (by decide +kernel)
  obtain ⟨name, inner, _, shape⟩ := @Node.child_of_descend? _ _ _ _
    (fun n => (n.kind, n.span)) 0 (.identifier, ⟨7, 8⟩) atProperties (by decide +kernel)
  obtain ⟨isName, span⟩ := Prod.mk.inj shape
  have member := Node.mem_of_descend? atG
  have binder := mem_binders_of_let isLet front isBindings (List.mem_of_getElem? child)
  obtain ⟨todo, f, next, _, point, _, ran, _, _, bound⟩ := binder_targets_bound letProperties member
    binder assigns (by rw [List.head?_eq_getElem?, first]) ⟨.empty, .empty⟩
    (fun isLocal => by rw [isLet] at isLocal; cases isLocal)
  have isTarget : (Walk.targets.avoiding [.curlyExpression]).Finds left name :=
    .all (by rw [isTuple]; rfl) (List.mem_of_getElem? second)
      (.all (by rw [isProperties]; rfl) (List.mem_of_getElem? inner) (.name isName))
  obtain ⟨isLocal, inFrame, _⟩ := bound name ['a'] isTarget (by rw [span]; decide) (by decide)
  rw [span] at isLocal
  exact ⟨g, member, isLet, c, binder, assigns, todo, f, next, point, ran, isLocal,
    inFrame (by simp [undeclared])⟩

def letFunction : Text :=
  ['l', 'e', 't', ' ', 'f', '(', 'x', ')', ' ', '=', ' ', 'x', '\n', 'e', 'n', 'd']

/-- Binders do not find the name of the function: it is read, and so are its parameters. -/
theorem let_function_read :
    ∃ analysis, analyzeCell letFunction .standard = .ok analysis ∧ analysis.locals = [] ∧
      ⟨['f'], ⟨4, 5⟩⟩ ∈ analysis.usages := by
  have answer : (analyzeCell letFunction .standard).toOption =
      some ⟨[], [⟨['x'], ⟨11, 12⟩⟩, ⟨['f'], ⟨4, 5⟩⟩, ⟨['x'], ⟨6, 7⟩⟩], []⟩ := by
    decide +kernel
  exact ⟨_, eq_ok_of_toOption answer, rfl, by decide⟩

end CellBindings
