import CellBindings.Proofs.ScopeDiscipline

/-!
Reads do not depend on scopes. The stack decides whether an assigned name becomes a definition or a
local, but neither which nodes are visited nor what is read there. So two explorations of a tree
that differ only in the scopes around it fail alike, or read the same names in the same places.
-/

namespace CellBindings

namespace Explorer

variable (e : Explorer) (name : Text) (kind : DefinitionKind) (span : Span)

@[simp] theorem usages_define : (e.define name kind span).analysis.usages = e.analysis.usages := by
  unfold define
  split <;> rfl

@[simp] theorem usages_bind : (e.bind name span).analysis.usages = e.analysis.usages := by
  unfold bind
  split <;> rfl

@[simp] theorem usages_declareGlobal :
    (e.declareGlobal name).analysis.usages = e.analysis.usages := rfl

/-- Wherever the name is found, assigning to it reads nothing. -/
@[simp] theorem usages_assign : (e.assign name kind span).analysis.usages = e.analysis.usages := by
  unfold assign
  split
  · rfl
  · split
    · rfl
    · rfl
    · split <;> rfl

theorem usages_use {e f : Explorer} (h : e.analysis.usages = f.analysis.usages) (name : Text)
    (span : Span) : (e.use name span).analysis.usages = (f.use name span).analysis.usages := by
  unfold use
  split
  · exact h
  · exact congrArg (· ++ [⟨name, span⟩]) h

end Explorer

structure SameReads (first second : Except ExploreError Unit × Explorer) : Prop where
  outcome : first.1 = second.1
  usages : first.2.analysis.usages = second.2.analysis.usages

theorem SameReads.cases {first second : Except ExploreError Unit × Explorer}
    (h : SameReads first second) :
    ∃ next other : Explorer, next.analysis.usages = other.analysis.usages ∧
      ((∃ error, first = (.error error, next) ∧ second = (.error error, other)) ∨
        first = (.ok (), next) ∧ second = (.ok (), other)) := by
  obtain ⟨outcome, next⟩ := first
  obtain ⟨outcome', other⟩ := second
  obtain ⟨same, usages⟩ := h
  dsimp only at same usages
  subst same
  refine ⟨next, other, usages, ?_⟩
  cases outcome with
  | error error => exact .inl ⟨error, rfl, rfl⟩
  | ok => exact .inr ⟨rfl, rfl⟩

namespace Effect

variable {document : Text} {e f : Explorer}

theorem withText_sameReads {span : Span} {next other : Text → Explorer}
    (h : e.analysis.usages = f.analysis.usages)
    (k : ∀ text, (next text).analysis.usages = (other text).analysis.usages) :
    SameReads (withText document span e next) (withText document span f other) := by
  unfold withText
  split
  · exact ⟨rfl, h⟩
  · exact ⟨rfl, k _⟩

/-- Two runs through a list keep reading alike, since one fails where the other does. -/
theorem runAll_sameReads {effects : List Effect}
    (step : ∀ effect ∈ effects, ∀ e f : Explorer, e.analysis.usages = f.analysis.usages →
      SameReads (effect.run document e) (effect.run document f))
    (h : e.analysis.usages = f.analysis.usages) :
    SameReads (runAll document effects e) (runAll document effects f) := by
  induction effects generalizing e f with
  | nil =>
    rw [runAll, runAll]
    exact ⟨rfl, h⟩
  | cons effect effects ih =>
    rw [runAll, runAll]
    obtain ⟨next, other, usages, ⟨error, one, two⟩ | ⟨one, two⟩⟩ :=
      (step effect (by simp) e f h).cases
    · rw [one, two]
      exact ⟨rfl, usages⟩
    · rw [one, two]
      exact ih (fun effect he => step effect (by simp [he])) usages

theorem run_sameReads (effect : Effect) (h : e.analysis.usages = f.analysis.usages) :
    SameReads (effect.run document e) (effect.run document f) := by
  induction effect using Effect.induct generalizing e f with
  | use span =>
    rw [run, run]
    exact withText_sameReads h fun name => Explorer.usages_use h name span
  | assign kind span =>
    rw [run, run]
    exact withText_sameReads h fun name => by simpa using h
  | bind span =>
    rw [run, run]
    exact withText_sameReads h fun name => by simpa using h
  | define kind span =>
    rw [run, run]
    exact withText_sameReads h fun name => by simpa using h
  | declareGlobal span =>
    rw [run, run]
    exact withText_sameReads h fun name => by simpa using h
  | update operator target =>
    rw [run, run]
    split
    · exact ⟨rfl, h⟩
    · split
      · exact ⟨rfl, h⟩
      · split
        · exact ⟨rfl, h⟩
        · exact withText_sameReads h fun name => by simpa using h
  | inFrame kind body ih =>
    -- the frames differ below the one just entered, and that is all that may differ
    have inside := @runAll_sameReads document { e with scopes := e.scopes.push kind }
      { f with scopes := f.scopes.push kind } body (fun effect he _ _ => ih effect he) h
    rw [run, run]
    exact ⟨inside.outcome, inside.usages⟩

end Effect

/-- Under any two stacks, the exploration of a tree fails with the same error or succeeds with the
same usages. -/
theorem reads_ignore_scopes (document : Text) (node : Node) (quoted : Bool)
    (one two : ScopeStack) :
    (∃ error, explore document one quoted node = .error error ∧
      explore document two quoted node = .error error) ∨
    ∃ a b, explore document one quoted node = .ok a ∧ explore document two quoted node = .ok b ∧
      a.usages = b.usages := by
  unfold explore
  split
  · exact .inl ⟨_, rfl, rfl⟩
  · have runs := @Effect.runAll_sameReads document ⟨one, .empty⟩ ⟨two, .empty⟩
      (node.effects quoted) (fun effect _ _ _ => Effect.run_sameReads effect) rfl
    obtain ⟨next, other, usages, ⟨error, first, second⟩ | ⟨first, second⟩⟩ := runs.cases
    · rw [first, second]
      exact .inl ⟨error, rfl, rfl⟩
    · rw [first, second]
      exact .inr ⟨next.analysis, other.analysis, rfl, rfl, usages⟩

end CellBindings
