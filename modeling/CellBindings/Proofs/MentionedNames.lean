import CellBindings.Proofs.ConfinedNames
import CellBindings.Proofs.NamePositions
import CellBindings.Proofs.PlacedNodes
import CellBindings.Proofs.ShapedRules
import CellBindings.Proofs.TruthfulAnalysis

/-!
No name gets lost. Every name of a text that does not stand in a position that is skipped is read
or bound by some effect, and what is read or bound is accounted for in the analysis: a name that is
assigned while it is bound already was listed when it was bound.
-/

namespace CellBindings

open Effect (count countAll)

section Accounting

variable {document : Text} {e : Explorer} {name : Text} {kind : DefinitionKind} {span : Span}

def Analysis.Traces (a : Analysis) (name : Text) : Prop :=
  name ∈ a.definitions.map (·.1) ∨ name ∈ a.locals.map (·.name)

theorem Analysis.Traces.grow {a b : Analysis} (h : a.Traces name) (grows : a.Grows b) :
    b.Traces name := by
  rcases h with h | h
  · exact .inl (grows.keys.subset h)
  · exact .inr ((grows.locals.map _).subset h)

/-- A name is listed at its span, or some binding of the same name is. -/
def Analysis.Accounts (a : Analysis) (name : Text) (span : Span) : Prop :=
  (∃ o ∈ a.usages ++ a.locals, o.span = span) ∨
    ∃ key, (key = name ∨ key = '@' :: name) ∧
      (key ∈ a.definitions.map (·.1) ∨ key ∈ a.locals.map (·.name))

theorem Analysis.Accounts.grow {a b : Analysis} (h : a.Accounts name span) (grows : a.Grows b) :
    b.Accounts name span := by
  rcases h with ⟨o, ho, same⟩ | ⟨key, isKey, known⟩
  · refine .inl ⟨o, ?_, same⟩
    rcases List.mem_append.mp ho with ho | ho
    · exact List.mem_append_left _ (grows.usages.subset ho)
    · exact List.mem_append_right _ (grows.locals.subset ho)
  · have traced : a.Traces key := known
    exact .inr ⟨key, isKey, traced.grow grows⟩

def Explorer.Backed (e : Explorer) : Prop :=
  ∀ frame ∈ e.scopes.frames, ∀ name ∈ frame.bound, name ∈ e.analysis.locals.map (·.name)

theorem resolveIn_bound {frames : List ScopeFrame} (h : ScopeStack.resolveIn name frames = .bound) :
    ∃ frame ∈ frames, name ∈ frame.bound := by
  induction frames with
  | nil => cases h
  | cons frame frames ih =>
    rw [ScopeStack.resolveIn] at h
    split at h
    · next bound => exact ⟨frame, List.mem_cons_self, bound⟩
    · split at h
      · cases h
      · obtain ⟨other, ho, bound⟩ := ih h
        exact ⟨other, List.mem_cons_of_mem _ ho, bound⟩

namespace Explorer.Backed

theorem grow {analysis : Analysis} (h : e.Backed) (grows : e.analysis.Grows analysis) :
    Backed ⟨e.scopes, analysis⟩ := by
  intro frame hf name bound
  exact (grows.locals.map _).subset (h frame hf name bound)

theorem use (h : e.Backed) : (e.use name span).Backed := by
  unfold Explorer.use
  split
  · exact h
  · exact h.grow (.addUsage _ name span)

theorem define (h : e.Backed) : (e.define name kind span).Backed := by
  unfold Explorer.define
  split
  · exact h
  · exact h.grow (.define _ name kind span)

/-- A name that is bound in the innermost frame is listed at once. -/
theorem bind? {scopes : ScopeStack} (h : e.Backed) (bound : e.scopes.bind? name = some scopes) :
    Backed ⟨scopes, e.analysis.addLocal name span⟩ := by
  obtain ⟨⟨frames⟩, analysis⟩ := e
  cases frames with
  | nil => cases bound
  | cons frame frames =>
    cases bound
    have grown := h.grow (.addLocal _ name span)
    intro other ho key hk
    rcases List.mem_cons.mp ho with rfl | ho
    · rcases List.mem_insert_iff.mp hk with rfl | hk
      · simp [Analysis.addLocal]
      · exact grown frame List.mem_cons_self key hk
    · exact grown other (List.mem_cons_of_mem _ ho) key hk

theorem bind (h : e.Backed) : (e.bind name span).Backed := by
  unfold Explorer.bind
  split
  · exact h
  · cases bound : e.scopes.bind? name with
    | none => exact h.grow (.addLocal _ name span)
    | some scopes => exact h.bind? bound

theorem assign (h : e.Backed) : (e.assign name kind span).Backed := by
  unfold Explorer.assign
  split
  · exact h
  · split
    · exact h
    · exact h.grow (.define _ name kind span)
    · split
      · next scopes bound => exact h.bind? bound
      · exact h.grow (.define _ name kind span)

theorem declareGlobal (h : e.Backed) : (e.declareGlobal name).Backed := by
  obtain ⟨⟨frames⟩, analysis⟩ := e
  cases frames with
  | nil => exact h
  | cons frame frames =>
    intro other ho key hk
    rcases List.mem_cons.mp ho with rfl | ho
    · exact h frame List.mem_cons_self key (List.mem_filter.mp hk).1
    · exact h other (List.mem_cons_of_mem _ ho) key hk

theorem push (h : e.Backed) (scope : ScopeKind) :
    Backed { e with scopes := e.scopes.push scope } := by
  intro frame hf key hk
  rcases List.mem_cons.mp hf with rfl | hf
  · cases hk
  · exact h frame hf key hk

end Explorer.Backed

theorem run_backed (effect : Effect) (h : e.Backed) : (effect.run document e).2.Backed := by
  cases effect using Effect.induct with
  | use span =>
    rw [Effect.run]
    exact Effect.withText_keeps h fun _ => h.use
  | assign kind span =>
    rw [Effect.run]
    exact Effect.withText_keeps h fun _ => h.assign
  | bind span =>
    rw [Effect.run]
    exact Effect.withText_keeps h fun _ => h.bind
  | define kind span =>
    rw [Effect.run]
    exact Effect.withText_keeps h fun _ => h.define
  | declareGlobal span =>
    rw [Effect.run]
    exact Effect.withText_keeps h fun _ => h.declareGlobal
  | update operator target => exact Effect.update_keeps h fun _ _ => h.assign
  | inFrame kind body _ =>
    have extended := Effect.run_extends document (.scoped kind body) e
    have scopes := @Effect.scoped_scopes document kind body e (Effect.runAll_extends document body)
    have grown := h.grow extended.analysis
    rw [← scopes] at grown
    exact grown

/-- An assignment to a name: it is recorded now, or it was when the name was bound. -/
theorem assign_traces (h : e.Backed) (named : name ≠ wildcard) :
    (e.assign name kind span).analysis.Traces name := by
  have defined : (e.analysis.define name kind span).Traces name :=
    .inl (mem_keys_insert name _ _)
  simp only [Explorer.assign, named, if_false]
  split
  · next bound =>
    obtain ⟨frame, hf, bound⟩ := resolveIn_bound bound
    exact .inr (h frame hf name bound)
  · exact defined
  · split
    · exact .inr (by simp [Analysis.addLocal])
    · exact defined

theorem DefinitionKind.key_eq (kind : DefinitionKind) (name : Text) :
    kind.key name = name ∨ kind.key name = '@' :: name := by
  unfold DefinitionKind.key
  split
  · exact .inr rfl
  · exact .inl rfl

theorem key_ne_wildcard (named : name ≠ wildcard) : kind.key name ≠ wildcard := by
  rcases kind.key_eq name with key | key
  · rwa [key]
  · rw [key]
    exact fun wild => absurd (List.cons.inj wild).1 (by decide)

def Effect.Lists (document : Text) (span : Span) (effect : Effect) : Prop :=
  ∀ e : Explorer, e.Backed → (effect.run document e).1 = .ok () →
    effect.count ⟨.read, span⟩ + effect.count ⟨.bind, span⟩ ≠ 0 →
    ∃ name, document.slice? span = some name ∧
      (name = wildcard ∨ (effect.run document e).2.analysis.Accounts name span)

theorem runAll_lists {effects : List Effect} (h : ∀ effect ∈ effects, effect.Lists document span)
    (backed : e.Backed) (ok : (Effect.runAll document effects e).1 = .ok ())
    (mentioned : countAll ⟨.read, span⟩ effects + countAll ⟨.bind, span⟩ effects ≠ 0) :
    ∃ name, document.slice? span = some name ∧
      (name = wildcard ∨ (Effect.runAll document effects e).2.analysis.Accounts name span) := by
  induction effects generalizing e with
  | nil => simp at mentioned
  | cons effect effects ih =>
    have first := h effect (by simp) e backed
    have next := @run_backed document e effect backed
    simp only [countAll_cons] at mentioned
    rw [Effect.runAll] at ok ⊢
    generalize effect.run document e = result at first next ok
    obtain ⟨outcome, after⟩ := result
    cases outcome with
    | error error => cases ok
    | ok =>
      by_cases here : effect.count ⟨.read, span⟩ + effect.count ⟨.bind, span⟩ = 0
      · exact ih (fun other ho => h other (by simp [ho])) next ok (by omega)
      · obtain ⟨name, spelled, listed⟩ := first rfl here
        refine ⟨name, spelled, listed.imp_right ?_⟩
        intro accounts
        exact accounts.grow (Effect.runAll_extends document effects after).analysis

theorem withText_lists {other : Span} {next : Text → Explorer}
    (ok : (Effect.withText document other e next).1 = .ok ()) (same : span = other)
    (h : ∀ name, name ≠ wildcard → (next name).analysis.Accounts name span) :
    ∃ name, document.slice? span = some name ∧
      (name = wildcard ∨
        (Effect.withText document other e next).2.analysis.Accounts name span) := by
  subst same
  unfold Effect.withText at ok ⊢
  cases spelled : document.slice? span with
  | none =>
    rw [spelled] at ok
    cases ok
  | some name =>
    by_cases wild : name = wildcard
    · exact ⟨name, rfl, .inl wild⟩
    · exact ⟨name, rfl, .inr (h name wild)⟩

theorem run_lists (effect : Effect) : effect.Lists document span := by
  have same {m : Mention} {other : Span} (h : Site.tally ⟨.read, span⟩ ⟨m, other⟩ +
      Site.tally ⟨.bind, span⟩ ⟨m, other⟩ ≠ 0) : span = other := by
    by_cases same : span = other
    · exact same
    · simp [Site.tally, same] at h
  induction effect using Effect.induct with
  | use other =>
    intro e backed ok mentioned
    simp only [Effect.run, count_use] at ok mentioned ⊢
    refine withText_lists ok (same mentioned) ?_
    intro name named
    simp only [Explorer.use, named, if_false]
    exact .inl ⟨⟨name, other⟩, by simp [Analysis.addUsage], (same mentioned).symm⟩
  | assign kind other =>
    intro e backed ok mentioned
    simp only [Effect.run, count_assign] at ok mentioned ⊢
    obtain rfl := same mentioned
    refine withText_lists ok rfl ?_
    intro name named
    exact .inr ⟨_, kind.key_eq name, assign_traces backed (key_ne_wildcard named)⟩
  | bind other =>
    intro e backed ok mentioned
    simp only [Effect.run, count_bind] at ok mentioned ⊢
    refine withText_lists ok (same mentioned) ?_
    intro name named
    simp only [Explorer.bind, named, if_false]
    exact .inl ⟨⟨name, other⟩, by simp [Analysis.addLocal], (same mentioned).symm⟩
  | define kind other =>
    intro e backed ok mentioned
    simp only [Effect.run, count_define] at ok mentioned ⊢
    refine withText_lists ok (same mentioned) ?_
    intro name named
    simp only [Explorer.define, named, if_false]
    exact .inr ⟨name, .inl rfl, .inl (mem_keys_insert name _ _)⟩
  | declareGlobal other =>
    intro e backed ok mentioned
    simp at mentioned
  | update operator target =>
    intro e backed ok mentioned
    cases target with
    | none => simp [count_update] at mentioned
    | some other => simp [count_update, Site.tally] at mentioned
  | inFrame kind body ih =>
    intro e backed ok mentioned
    simp only [Effect.run, count_scoped] at ok mentioned ⊢
    exact runAll_lists ih (backed.push kind) ok mentioned

end Accounting

theorem explore_runs {document : Text} {enclosing : ScopeStack} {quoted : Bool} {node : Node}
    {analysis : Analysis} (h : explore document enclosing quoted node = .ok analysis) :
    (Effect.runAll document (node.effects quoted) ⟨enclosing, .empty⟩).1 = .ok () := by
  unfold explore at h
  split at h
  · cases h
  · split at h
    · next result => rw [result]
    · cases h

/-- For every text the analysis succeeds, and no name gets lost: unless it stands in a position that
is exempt or never looked at, every name but the wildcard is listed at its span as read or as a
local, or is a key of the definitions or the name of a local, up to the at sign of a macro. -/
theorem names_accounted (text : Text) :
    ∃ analysis, analyzeCell text .standard = .ok analysis ∧
      ∀ path leaf, (parse text).descend? path = some leaf → leaf.kind = .identifier →
        ¬ (parse text).Exempt path → ¬ (parse text).Unseen path →
        ∃ name, text.slice? leaf.span = some name ∧
          (name = wildcard ∨ analysis.Accounts name leaf.span) := by
  obtain ⟨analysis, explored, _⟩ := explore_truthful text .empty false
  refine ⟨analysis, by simp [analyzeCell, Options.standard, explored], ?_⟩
  intro path leaf below name notExempt seen
  have formed := parse_formed text
  have mentioned : (parse text).mentions ⟨.read, leaf.span⟩ .value +
      (parse text).mentions ⟨.bind, leaf.span⟩ .value ≠ 0 := by
    rcases @mentioned_or_skipped _ [] _ _ .value path formed trivial rfl trivial below name with
      mentioned | exempt | unseen
    · exact mentioned
    · exact absurd exempt notExempt
    · exact absurd unseen seen
  have backed : Explorer.Backed ⟨.empty, .empty⟩ := by
    intro frame hf
    cases hf
  have matched (m : Mention) : countAll ⟨m, leaf.span⟩ ((parse text).effects false) =
      (parse text).mentions ⟨m, leaf.span⟩ .value := formed.mentionsMatch _ .value trivial
  rw [← explore_eq_ok explored]
  apply runAll_lists (fun effect _ => run_lists effect) backed (explore_runs explored)
  rwa [matched, matched]

/-- `y` is assigned in a function, inside a `let` in which it is bound already. -/
def assignInside : Text :=
  ['l', 'e', 't', ' ', 'y', '\n', 'f', '(', ')', ' ', '=', ' ', '(', 'y', ' ', '=', ' ', 'x', ')',
    '\n', 'e', 'n', 'd']

theorem assign_inside_accounted :
    ∃ analysis, analyzeCell assignInside .standard = .ok analysis ∧
      ∃ leaf, (parse assignInside).descend? [0, 1, 0, 2, 0, 0] = some leaf ∧
        leaf.kind = .identifier ∧ ¬ (parse assignInside).Exempt [0, 1, 0, 2, 0, 0] ∧
        ¬ (parse assignInside).Unseen [0, 1, 0, 2, 0, 0] ∧
        ∃ name, assignInside.slice? leaf.span = some name ∧
          (name = wildcard ∨ analysis.Accounts name leaf.span) := by
  obtain ⟨analysis, analyzed, accounted⟩ := names_accounted assignInside
  have kind : (parse assignInside).kindAt? [0, 1, 0, 2, 0, 0] = some .identifier := by
    decide +kernel
  obtain ⟨leaf, found, name⟩ := Option.map_eq_some_iff.mp kind
  have notExempt : ¬ (parse assignInside).Exempt [0, 1, 0, 2, 0, 0] := by
    intro exempt
    have none : ¬ (parse assignInside).Passes [0, 1, 0, 2, 0, 0] Kind.exempts := by
      decide +kernel
    exact none exempt.passes
  have seen : ¬ (parse assignInside).Unseen [0, 1, 0, 2, 0, 0] := by
    intro unseen
    have none : ¬ (parse assignInside).Passes [0, 1, 0, 2, 0, 0] (· == .callExpression) := by
      decide +kernel
    exact none unseen.passes
  exact ⟨analysis, analyzed, leaf, found, name, notExempt, seen,
    accounted _ leaf found name notExempt seen⟩

def interpolatedName : Text :=
  ['f', 'u', 'n', 'c', 't', 'i', 'o', 'n', ' ', '$', 'f', '(', ')', ' ', 'e', 'n', 'd']

/-- The interpolated name is in no exempt position, and yet it is not accounted for. -/
theorem interpolated_name_lost :
    ∃ analysis, analyzeCell interpolatedName .standard = .ok analysis ∧
      ∃ leaf, (parse interpolatedName).descend? [0, 0, 0, 0, 0] = some leaf ∧
        leaf.kind = .identifier ∧ interpolatedName.slice? leaf.span = some ['f'] ∧
        ¬ (parse interpolatedName).Exempt [0, 0, 0, 0, 0] ∧
        ¬ analysis.Accounts ['f'] leaf.span := by
  have answer : (analyzeCell interpolatedName .standard).toOption = some .empty := by
    decide +kernel
  have kind : ((parse interpolatedName).descend? [0, 0, 0, 0, 0]).map
      (fun leaf => (leaf.kind, interpolatedName.slice? leaf.span)) =
        some (.identifier, some ['f']) := by decide +kernel
  obtain ⟨leaf, found, same⟩ := Option.map_eq_some_iff.mp kind
  have notExempt : ¬ (parse interpolatedName).Exempt [0, 0, 0, 0, 0] := by
    intro exempt
    have none : ¬ (parse interpolatedName).Passes [0, 0, 0, 0, 0] Kind.exempts := by
      decide +kernel
    exact none exempt.passes
  have lost : ¬ Analysis.empty.Accounts ['f'] leaf.span := by
    simp [Analysis.Accounts, Analysis.empty]
  exact ⟨.empty, eq_ok_of_toOption answer, leaf, found, (Prod.mk.inj same).1, (Prod.mk.inj same).2,
    notExempt, lost⟩

end CellBindings
