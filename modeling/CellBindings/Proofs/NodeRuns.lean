import CellBindings.Proofs.ClassifiedOnce
import CellBindings.Proofs.IndependentStatements

/-!
Exploring one node of the tree of a text, from any state. It succeeds; the innermost frame changes
by single steps, each of which binds a name or declares one global; and nothing is recorded at a
span that the effects do not mention.
-/

namespace CellBindings

open Effect (count countAll)

inductive FrameStep (document : Text) (effect : Effect) (frame : ScopeFrame) :
    ScopeFrame → Prop where
  | same : FrameStep document effect frame frame
  | bind {span name} : effect = .bind span → document.slice? span = some name →
      FrameStep document effect frame (frame.bind name)
  /-- A name that is assigned while it is free. -/
  | adopt {name} : name ∉ frame.bound → name ∉ frame.globals →
      FrameStep document effect frame (frame.bind name)
  | declare {span name} : effect = .declareGlobal span → document.slice? span = some name →
      FrameStep document effect frame (frame.declareGlobal name)

/-- The frames around the innermost one stay, and that one makes at most a step. -/
def Explorer.Steps (document : Text) (effect : Effect) (frame : ScopeFrame)
    (outer : List ScopeFrame) (after : Explorer) : Prop :=
  ∃ next, after.scopes.frames = next :: outer ∧ FrameStep document effect frame next

section Frames

variable {document : Text} {effect : Effect} {effects : List Effect} {e : Explorer}
  {frame : ScopeFrame} {outer : List ScopeFrame}

theorem steps_of_same (h : e.scopes.frames = frame :: outer) :
    e.Steps document effect frame outer :=
  ⟨frame, h, .same⟩

theorem steps_assign (h : e.scopes.frames = frame :: outer) (name : Text) (kind : DefinitionKind)
    (span : Span) : (e.assign name kind span).Steps document effect frame outer := by
  unfold Explorer.assign
  split
  · exact steps_of_same h
  · split
    · exact steps_of_same h
    · exact steps_of_same h
    · next free =>
      simp only [ScopeStack.resolve, h, ScopeStack.resolveIn] at free
      by_cases bound : name ∈ frame.bound
      · simp [bound] at free
      · by_cases global : name ∈ frame.globals
        · simp [bound, global] at free
        · simp only [ScopeStack.bind?, h]
          exact ⟨frame.bind name, rfl, .adopt bound global⟩

theorem run_steps (effect : Effect) (h : e.scopes.frames = frame :: outer) :
    (effect.run document e).2.Steps document effect frame outer := by
  have same : e.Steps document effect frame outer := steps_of_same h
  cases effect using Effect.induct with
  | use span =>
    rw [Effect.run]
    refine Effect.withText_keeps same ?_
    intro name
    unfold Explorer.use
    split <;> exact same
  | assign kind span =>
    rw [Effect.run]
    exact Effect.withText_keeps same fun name => steps_assign h _ kind span
  | bind span =>
    rw [Effect.run, Effect.withText]
    split
    · exact same
    · next name spelled =>
      by_cases wild : name = wildcard
      · simp only [Explorer.bind, wild, if_true]
        exact same
      · simp only [Explorer.bind, wild, if_false, ScopeStack.bind?, h, Option.getD_some]
        exact ⟨frame.bind name, rfl, .bind rfl spelled⟩
  | define kind span =>
    rw [Effect.run]
    refine Effect.withText_keeps same ?_
    intro name
    unfold Explorer.define
    split <;> exact same
  | declareGlobal span =>
    rw [Effect.run, Effect.withText]
    split
    · exact same
    · next name spelled =>
      simp only [Explorer.declareGlobal, ScopeStack.declareGlobal?, h, Option.getD_some]
      exact ⟨frame.declareGlobal name, rfl, .declare rfl spelled⟩
  | update operator target =>
    exact Effect.update_keeps same fun name span => steps_assign h name .variableName span
  | inFrame kind body _ =>
    have scopes := @Effect.scoped_scopes document kind body e (Effect.runAll_extends document body)
    exact ⟨frame, by rw [scopes, h], .same⟩

def Explorer.Inside (P : ScopeFrame → Prop) (e : Explorer) : Prop :=
  ∃ frame outer, e.scopes.frames = frame :: outer ∧ P frame

/-- What all steps of the effects keep, carrying them out keeps. -/
theorem runAll_inside {P : ScopeFrame → Prop}
    (step : ∀ effect ∈ effects, ∀ frame next, FrameStep document effect frame next →
      P frame → P next)
    (h : e.Inside P) : (Effect.runAll document effects e).2.Inside P := by
  refine Effect.runAll_keeps ?_ h
  rintro effect member e ⟨frame, outer, frames, holds⟩
  obtain ⟨next, after, stepped⟩ := @run_steps document e frame outer effect frames
  exact ⟨next, outer, after, step effect member frame next stepped holds⟩

end Frames

section Apart

variable {document : Text} {span : Span} {effect : Effect} {effects : List Effect} {e : Explorer}

def AddsApart (span : Span) (before after : List Occurrence) : Prop :=
  ∃ new, after = before ++ new ∧ ∀ o ∈ new, o.span ≠ span

theorem AddsApart.refl (items : List Occurrence) : AddsApart span items items :=
  ⟨[], by simp, by simp⟩

theorem AddsApart.trans {first second third : List Occurrence} (h : AddsApart span first second)
    (k : AddsApart span second third) : AddsApart span first third := by
  obtain ⟨new, rfl, apart⟩ := h
  obtain ⟨more, rfl, later⟩ := k
  refine ⟨new ++ more, by simp, ?_⟩
  intro o ho
  rcases List.mem_append.mp ho with ho | ho
  · exact apart o ho
  · exact later o ho

theorem AddsApart.single {items : List Occurrence} {name : Text} {other : Span}
    (h : other ≠ span) : AddsApart span items (items ++ [⟨name, other⟩]) :=
  ⟨[⟨name, other⟩], rfl, by simp [h]⟩

structure Explorer.AddsOnlyCounted (span : Span) (reads binds : Nat) (before after : Explorer) :
    Prop where
  usages : reads = 0 → AddsApart span before.analysis.usages after.analysis.usages
  locals : binds = 0 → AddsApart span before.analysis.locals after.analysis.locals

theorem Explorer.AddsOnlyCounted.refl (e : Explorer) (reads binds : Nat) :
    e.AddsOnlyCounted span reads binds e :=
  ⟨fun _ => .refl _, fun _ => .refl _⟩

theorem ne_of_tally {m : Mention} {other : Span} (h : Site.tally ⟨m, span⟩ ⟨m, other⟩ = 0) :
    other ≠ span := by
  rintro rfl
  simp [Site.tally] at h

theorem addsOnlyCounted_use (e : Explorer) (name : Text) (other : Span) (binds : Nat) :
    e.AddsOnlyCounted span (Site.tally ⟨.read, span⟩ ⟨.read, other⟩) binds (e.use name other) := by
  unfold Explorer.use
  split
  · exact .refl e _ _
  · exact ⟨fun none => .single (ne_of_tally none), fun _ => .refl _⟩

theorem addsOnlyCounted_bind (e : Explorer) (name : Text) (other : Span) (reads : Nat) :
    e.AddsOnlyCounted span reads (Site.tally ⟨.bind, span⟩ ⟨.bind, other⟩) (e.bind name other) := by
  unfold Explorer.bind
  split
  · exact .refl e _ _
  · exact ⟨fun _ => .refl _, fun none => .single (ne_of_tally none)⟩

theorem addsOnlyCounted_define (e : Explorer) (name : Text) (kind : DefinitionKind) (other : Span)
    (reads binds : Nat) : e.AddsOnlyCounted span reads binds (e.define name kind other) := by
  unfold Explorer.define
  split
  · exact .refl e _ _
  · exact ⟨fun _ => .refl _, fun _ => .refl _⟩

theorem addsOnlyCounted_assign (e : Explorer) (name : Text) (kind : DefinitionKind) (other : Span)
    (reads : Nat) :
    e.AddsOnlyCounted span reads (Site.tally ⟨.bind, span⟩ ⟨.bind, other⟩)
      (e.assign name kind other) := by
  unfold Explorer.assign
  split
  · exact .refl e _ _
  · split
    · exact .refl e _ _
    · exact ⟨fun _ => .refl _, fun _ => .refl _⟩
    · split
      · exact ⟨fun _ => .refl _, fun none => .single (ne_of_tally none)⟩
      · exact ⟨fun _ => .refl _, fun _ => .refl _⟩

def Effect.AddsOnlyCounted (document : Text) (span : Span) (effect : Effect) : Prop :=
  ∀ e : Explorer, e.AddsOnlyCounted span (effect.count ⟨.read, span⟩)
    (effect.count ⟨.bind, span⟩ + effect.count ⟨.update, span⟩) (effect.run document e).2

theorem runAll_addsOnlyCounted_of
    (h : ∀ effect ∈ effects, effect.AddsOnlyCounted document span) (e : Explorer) :
    e.AddsOnlyCounted span (countAll ⟨.read, span⟩ effects)
      (countAll ⟨.bind, span⟩ effects + countAll ⟨.update, span⟩ effects)
      (Effect.runAll document effects e).2 := by
  induction effects generalizing e with
  | nil =>
    rw [Effect.runAll]
    exact .refl e _ _
  | cons effect effects ih =>
    have first := h effect (by simp) e
    rw [Effect.runAll]
    simp only [countAll_cons]
    generalize effect.run document e = result at first
    obtain ⟨outcome, next⟩ := result
    cases outcome with
    | error error =>
      constructor
      · intro none
        exact first.usages (by omega)
      · intro none
        exact first.locals (by omega)
    | ok =>
      have rest := ih (fun other ho => h other (by simp [ho])) next
      constructor
      · intro none
        exact (first.usages (by omega)).trans (rest.usages (by omega))
      · intro none
        exact (first.locals (by omega)).trans (rest.locals (by omega))

theorem run_addsOnlyCounted (effect : Effect) : effect.AddsOnlyCounted document span := by
  induction effect using Effect.induct with
  | use other =>
    intro e
    rw [Effect.run, count_use]
    exact Effect.withText_keeps (.refl e _ _) fun name => addsOnlyCounted_use e name other _
  | assign kind other =>
    intro e
    rw [Effect.run, count_assign, count_assign, count_assign,
      Site.tally_of_ne (show Mention.update ≠ .bind by decide)]
    exact Effect.withText_keeps (.refl e _ _) fun name => addsOnlyCounted_assign e _ kind other _
  | bind other =>
    intro e
    rw [Effect.run, count_bind, count_bind, count_bind,
      Site.tally_of_ne (show Mention.update ≠ .bind by decide)]
    exact Effect.withText_keeps (.refl e _ _) fun name => addsOnlyCounted_bind e name other _
  | define kind other =>
    intro e
    rw [Effect.run]
    refine Effect.withText_keeps (.refl e _ _) ?_
    exact fun name => addsOnlyCounted_define e name kind other _ _
  | declareGlobal other =>
    intro e
    rw [Effect.run]
    exact Effect.withText_keeps (.refl e _ _) fun name => ⟨fun _ => .refl _, fun _ => .refl _⟩
  | update operator target =>
    intro e
    rw [Effect.run]
    split
    · exact .refl e _ _
    · cases target with
      | none => exact .refl e _ _
      | some other =>
        simp only [count_update, Option.elim_some,
          Site.tally_of_ne (show Mention.bind ≠ .update by decide), Site.tally_span .update .bind,
          Nat.zero_add]
        split
        · exact .refl e _ _
        · exact Effect.withText_keeps (.refl e _ _) fun name =>
            addsOnlyCounted_assign e name .variableName other _
  | inFrame kind body ih =>
    intro e
    have inside := runAll_addsOnlyCounted_of ih { e with scopes := e.scopes.push kind }
    simp only [Effect.run, count_scoped]
    exact ⟨inside.usages, inside.locals⟩

theorem runAll_addsOnlyCounted (effects : List Effect) (e : Explorer) :
    e.AddsOnlyCounted span (countAll ⟨.read, span⟩ effects)
      (countAll ⟨.bind, span⟩ effects + countAll ⟨.update, span⟩ effects)
      (Effect.runAll document effects e).2 :=
  runAll_addsOnlyCounted_of (fun effect _ => run_addsOnlyCounted effect) e

end Apart

section Trees

variable {text : Text} {node root : Node}

/-- The nodes under a node of a tree are nodes of the tree, in the same order. -/
theorem Node.preorder_sublist (h : node ∈ root.preorder) : node.preorder.Sublist root.preorder := by
  induction root using Node.induct with
  | node kind span children ih =>
    rcases Node.mem_preorder.mp h with rfl | ⟨child, member, below⟩
    · exact List.Sublist.refl _
    · have within : child.preorder.Sublist (children.flatMap Node.preorder) := by
        rw [List.flatMap_def]
        exact List.sublist_flatten_of_mem (List.mem_map_of_mem member)
      rw [Node.preorder_eq ⟨kind, span, children⟩, Node.preorderAll_eq]
      exact ((ih child member below).trans within).trans (List.sublist_cons_self _ _)

theorem Node.Formed.within (formed : root.Formed) (h : node ∈ root.preorder) : node.Formed := by
  induction root using Node.induct with
  | node kind span children ih =>
    rcases Node.mem_preorder.mp h with rfl | ⟨child, member, below⟩
    · exact formed
    · exact ih child member (formed.child child member) below

/-- Exploring a node of the tree of a text mentions a span at most once. -/
theorem parse_mentions_le (h : node ∈ (parse text).preorder) (span : Span) :
    countAll ⟨.read, span⟩ (node.effects false) + countAll ⟨.bind, span⟩ (node.effects false) ≤ 1 ∧
      countAll ⟨.bind, span⟩ (node.effects false) +
        countAll ⟨.update, span⟩ (node.effects false) ≤ 1 := by
  have formed := (parse_formed text).within h
  have matched (m : Mention) : countAll ⟨m, span⟩ (node.effects false) =
      node.mentions ⟨m, span⟩ .value := formed.mentionsMatch _ .value trivial
  have fewer : node.names span ≤ (parse text).names span :=
    (Node.preorder_sublist h).countP_le
  have single := parse_names_le text span
  have reads := @reads_and_binds_le span node formed .value trivial
  have updates := @binds_and_updates_le span node formed .value trivial
  rw [matched, matched, matched]
  exact ⟨by omega, by omega⟩

/-- Exploring a node of the tree of a text succeeds in any state. -/
theorem parse_runs (h : node ∈ (parse text).preorder) (e : Explorer) :
    ∃ next, Effect.runAll text (node.effects false) e = (.ok (), next) := by
  have named : ∀ n ∈ node.preorder, ∃ name, text.Names n.span name := by
    intro n hn
    have nested := (parse_nested text ((Node.preorder_sublist h).subset hn)).1
    exact Text.names_of_boundaries nested.ordered nested.edges.1 nested.edges.2
  have stems := @effects_stem (fun span => ∃ name, text.Names span name) (fun _ => True) node named
    (fun _ _ => trivial) false
  obtain ⟨scopes, analysis⟩ := e
  obtain ⟨next, ran, _⟩ := runAll_truthful (fun effect he => (stems effect he).runs fun _ h => h)
    ⟨scopes, .empty⟩ (truthful_empty text _)
  rw [Effect.runAll_behind, ran]
  exact ⟨_, rfl⟩

end Trees

end CellBindings
