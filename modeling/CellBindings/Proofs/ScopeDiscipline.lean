import CellBindings.Effect.Run

/-!
Scope discipline. Whatever is explored, and whether or not it fails, the frames outside the
innermost one stay as they are, the innermost one keeps its kind, and the analysis only grows. A
construct with a frame of its own leaves the whole stack as it found it.
-/

namespace CellBindings

/-- Induction over effects, with the property of all effects inside a frame. -/
theorem Effect.induct {P : Effect → Prop} (use : ∀ span, P (.use span))
    (assign : ∀ kind span, P (.assign kind span)) (bind : ∀ span, P (.bind span))
    (define : ∀ kind span, P (.define kind span))
    (declareGlobal : ∀ span, P (.declareGlobal span))
    (update : ∀ operator target, P (.update operator target))
    (inFrame : ∀ kind body, (∀ effect ∈ body, P effect) → P (.scoped kind body))
    (effect : Effect) : P effect := by
  refine @Effect.rec P (fun effects => ∀ effect ∈ effects, P effect) use assign bind define
    declareGlobal update inFrame ?_ ?_ effect
  · intro effect he
    cases he
  · intro first rest hf hr effect he
    rcases List.mem_cons.mp he with rfl | he
    · exact hf
    · exact hr effect he

namespace Effect

variable {document : Text} {P : Explorer → Prop} {e : Explorer}

/-- What every effect of a list keeps, the whole list keeps: up to the first failure they follow one
another. -/
theorem runAll_keeps {effects : List Effect}
    (h : ∀ effect ∈ effects, ∀ e, P e → P (effect.run document e).2) (he : P e) :
    P (runAll document effects e).2 := by
  induction effects generalizing e with
  | nil =>
    rw [runAll]
    exact he
  | cons effect effects ih =>
    have first := h effect (by simp) e he
    rw [runAll]
    generalize effect.run document e = result at first
    obtain ⟨outcome, next⟩ := result
    cases outcome with
    | error error => exact first
    | ok => exact ih (fun other ho => h other (by simp [ho])) first

theorem withText_keeps {span : Span} {next : Text → Explorer} (he : P e)
    (h : ∀ text, P (next text)) : P (withText document span e next).2 := by
  unfold withText
  split
  · exact he
  · exact h _

theorem update_keeps {operator : Span} {target : Option Span} (he : P e)
    (h : ∀ name span, P (e.assign name .variableName span)) :
    P (run document (.update operator target) e).2 := by
  rw [run]
  split
  · exact he
  · split
    · exact he
    · split
      · exact he
      · exact withText_keeps he fun name => h name _

end Effect

structure ScopeStack.SameAround (before after : ScopeStack) : Prop where
  tail : after.frames.tail = before.frames.tail
  kinds : after.frames.map (·.kind) = before.frames.map (·.kind)

namespace ScopeStack.SameAround

theorem refl (scopes : ScopeStack) : scopes.SameAround scopes := ⟨rfl, rfl⟩

theorem trans {a b c : ScopeStack} (h : a.SameAround b) (k : b.SameAround c) : a.SameAround c :=
  ⟨k.tail.trans h.tail, k.kinds.trans h.kinds⟩

theorem bind (scopes : ScopeStack) (name : Text) :
    scopes.SameAround ((scopes.bind? name).getD scopes) := by
  obtain ⟨frames⟩ := scopes
  cases frames with
  | nil => exact refl _
  | cons frame rest => constructor <;> rfl

theorem declareGlobal (scopes : ScopeStack) (name : Text) :
    scopes.SameAround ((scopes.declareGlobal? name).getD scopes) := by
  obtain ⟨frames⟩ := scopes
  cases frames with
  | nil => exact refl _
  | cons frame rest => constructor <;> rfl

theorem depth {before after : ScopeStack} (h : before.SameAround after) :
    after.depth = before.depth := by
  have lengths := congrArg List.length h.kinds
  simpa [ScopeStack.depth] using lengths

theorem pop_push {scopes inner : ScopeStack} {kind : ScopeKind}
    (h : (scopes.push kind).SameAround inner) : inner.pop = scopes := by
  have outer : inner.frames.tail = scopes.frames := h.tail
  rw [ScopeStack.pop, outer]

end ScopeStack.SameAround

structure Analysis.Grows (before after : Analysis) : Prop where
  usages : before.usages <+: after.usages
  locals : before.locals <+: after.locals
  keys : before.definitions.map (·.1) <+: after.definitions.map (·.1)

theorem keys_insert (name : Text) (definition : Definition) (entries : List (Text × Definition)) :
    entries.map (·.1) <+: (Analysis.insert name definition entries).map (·.1) := by
  induction entries with
  | nil => exact List.nil_prefix
  | cons entry entries ih =>
    obtain ⟨key, old⟩ := entry
    rw [Analysis.insert]
    split
    · exact List.prefix_refl _
    · exact List.cons_prefix_cons.mpr ⟨rfl, ih⟩

theorem mem_keys_insert (name : Text) (definition : Definition)
    (entries : List (Text × Definition)) :
    name ∈ (Analysis.insert name definition entries).map (·.1) := by
  induction entries with
  | nil => simp [Analysis.insert]
  | cons entry entries ih =>
    obtain ⟨key, old⟩ := entry
    by_cases same : key = name
    · simp [Analysis.insert, same]
    · simp only [Analysis.insert, same, if_false, List.map_cons]
      exact List.mem_cons_of_mem _ ih

theorem mem_insert {name : Text} {definition : Definition} {entries : List (Text × Definition)}
    {entry : Text × Definition} (h : entry ∈ Analysis.insert name definition entries) :
    entry = (name, definition) ∨ entry ∈ entries := by
  induction entries with
  | nil => exact .inl (List.mem_singleton.mp h)
  | cons first entries ih =>
    simp only [Analysis.insert] at h
    split at h
    · next same =>
      rcases List.mem_cons.mp h with rfl | h
      · exact .inl (by rw [same])
      · exact .inr (List.mem_cons_of_mem _ h)
    · rcases List.mem_cons.mp h with rfl | h
      · exact .inr List.mem_cons_self
      · rcases ih h with h | h
        · exact .inl h
        · exact .inr (List.mem_cons_of_mem _ h)

namespace Analysis.Grows

theorem refl (a : Analysis) : a.Grows a :=
  ⟨List.prefix_refl _, List.prefix_refl _, List.prefix_refl _⟩

theorem trans {a b c : Analysis} (h : a.Grows b) (k : b.Grows c) : a.Grows c :=
  ⟨h.usages.trans k.usages, h.locals.trans k.locals, h.keys.trans k.keys⟩

theorem addUsage (a : Analysis) (name : Text) (span : Span) : a.Grows (a.addUsage name span) :=
  ⟨List.prefix_append _ _, List.prefix_refl _, List.prefix_refl _⟩

theorem addLocal (a : Analysis) (name : Text) (span : Span) : a.Grows (a.addLocal name span) :=
  ⟨List.prefix_refl _, List.prefix_append _ _, List.prefix_refl _⟩

theorem define (a : Analysis) (name : Text) (kind : DefinitionKind) (span : Span) :
    a.Grows (a.define name kind span) :=
  ⟨List.prefix_refl _, List.prefix_refl _, keys_insert _ _ _⟩

end Analysis.Grows

structure Explorer.Extends (before after : Explorer) : Prop where
  scopes : before.scopes.SameAround after.scopes
  analysis : before.analysis.Grows after.analysis

namespace Explorer.Extends

theorem refl (e : Explorer) : e.Extends e := ⟨.refl _, .refl _⟩

theorem trans {e f g : Explorer} (h : e.Extends f) (k : f.Extends g) : e.Extends g :=
  ⟨h.scopes.trans k.scopes, h.analysis.trans k.analysis⟩

variable (e : Explorer) (name : Text) (kind : DefinitionKind) (span : Span)

theorem use : e.Extends (e.use name span) := by
  unfold Explorer.use
  split
  · exact refl e
  · exact ⟨.refl _, .addUsage _ name span⟩

theorem define : e.Extends (e.define name kind span) := by
  unfold Explorer.define
  split
  · exact refl e
  · exact ⟨.refl _, .define _ name kind span⟩

theorem bind : e.Extends (e.bind name span) := by
  unfold Explorer.bind
  split
  · exact refl e
  · exact ⟨.bind _ name, .addLocal _ name span⟩

theorem declareGlobal : e.Extends (e.declareGlobal name) := ⟨.declareGlobal _ name, .refl _⟩

theorem assign : e.Extends (e.assign name kind span) := by
  unfold Explorer.assign
  split
  · exact refl e
  · split
    · exact refl e
    · exact ⟨.refl _, .define _ name kind span⟩
    · have around := ScopeStack.SameAround.bind e.scopes name
      split
      · next scopes bound =>
        rw [bound] at around
        exact ⟨around, .addLocal _ name span⟩
      · exact ⟨.refl _, .define _ name kind span⟩

end Explorer.Extends

namespace Effect

/-- A frame is entered and left again: outside it nothing has changed. -/
theorem scoped_scopes {document : Text} {kind : ScopeKind} {body : List Effect} {e : Explorer}
    (h : ∀ e : Explorer, e.Extends (runAll document body e).2) :
    (run document (.scoped kind body) e).2.scopes = e.scopes := by
  rw [run]
  exact (h { e with scopes := e.scopes.push kind }).scopes.pop_push

/-- One case for each effect; those inside a frame start from the state with that frame. -/
theorem run_extends (document : Text) (effect : Effect) (e : Explorer) :
    e.Extends (effect.run document e).2 := by
  induction effect using Effect.induct generalizing e with
  | use span =>
    rw [run]
    exact withText_keeps (.refl e) fun name => .use e name span
  | assign kind span =>
    rw [run]
    exact withText_keeps (.refl e) fun name => .assign e (kind.key name) kind span
  | bind span =>
    rw [run]
    exact withText_keeps (.refl e) fun name => .bind e name span
  | define kind span =>
    rw [run]
    exact withText_keeps (.refl e) fun name => .define e name kind span
  | declareGlobal span =>
    rw [run]
    exact withText_keeps (.refl e) fun name => .declareGlobal e name
  | update operator target =>
    exact update_keeps (.refl e) fun name span => .assign e name .variableName span
  | inFrame kind body ih =>
    have inside : ∀ e : Explorer, e.Extends (runAll document body e).2 := by
      intro e
      exact runAll_keeps (fun effect he f hf => hf.trans (ih effect he f)) (.refl e)
    constructor
    · rw [scoped_scopes inside]
      exact .refl _
    · rw [run]
      exact (inside { e with scopes := e.scopes.push kind }).analysis

theorem runAll_extends (document : Text) (effects : List Effect) (e : Explorer) :
    e.Extends (runAll document effects e).2 :=
  runAll_keeps (fun effect _ f hf => hf.trans (run_extends document effect f)) (.refl e)

end Effect

/-- Exploring a tree from any state, to its end or to a failure: the stack keeps its depth, all
frames but the innermost one, and the kind of that one; usages, locals and the keys of the
definitions are only added to, behind those that were there. -/
theorem exploring_keeps_frames (document : Text) (node : Node) (quoted : Bool) (e : Explorer) :
    let next := (Effect.runAll document (node.effects quoted) e).2
    next.scopes.depth = e.scopes.depth ∧
      next.scopes.frames.tail = e.scopes.frames.tail ∧
      next.scopes.top?.map (·.kind) = e.scopes.top?.map (·.kind) ∧
      (e.scopes = .empty → next.scopes = .empty) ∧
      e.analysis.usages <+: next.analysis.usages ∧
      e.analysis.locals <+: next.analysis.locals ∧
      e.analysis.definitions.map (·.1) <+: next.analysis.definitions.map (·.1) := by
  intro next
  obtain ⟨scopes, analysis⟩ := Effect.runAll_extends document (node.effects quoted) e
  have top : next.scopes.top?.map (·.kind) = e.scopes.top?.map (·.kind) := by
    have heads := congrArg List.head? scopes.kinds
    simpa [ScopeStack.top?] using heads
  have empty (none : e.scopes = .empty) : next.scopes = .empty := by
    have gone : next.scopes.depth = 0 := by rw [scopes.depth, none]; rfl
    exact congrArg ScopeStack.mk (List.length_eq_zero_iff.mp gone)
  exact ⟨scopes.depth, scopes.tail, top, empty, analysis.usages, analysis.locals, analysis.keys⟩

end CellBindings
