import CellBindings.Proofs.ConfinedNames

/-!
Statements are analysed independently. Exploring a node never looks at what has been recorded: from
any analysis it records what it would record from an empty one, behind what is there. Outside all
frames no statement leaves anything in the scope stack, so the analysis of a file is that of its
statements, one merged behind the other.
-/

namespace CellBindings

namespace Analysis

/-- Definitions put in one after the other: a name that is there keeps its place and gets the later
details. -/
def insertAll (entries more : List (Text × Definition)) : List (Text × Definition) :=
  more.foldl (fun all entry => insert entry.1 entry.2 all) entries

def merge (a b : Analysis) : Analysis :=
  ⟨insertAll a.definitions b.definitions, a.usages ++ b.usages, a.locals ++ b.locals⟩

def Keyed (a : Analysis) : Prop := (a.definitions.map (·.1)).Nodup

section Entries

variable {name key : Text} {new old : Definition} {entries more : List (Text × Definition)}

theorem keys_insert_of_mem (h : name ∈ entries.map (·.1)) :
    (insert name new entries).map (·.1) = entries.map (·.1) := by
  induction entries with
  | nil => cases h
  | cons entry entries ih =>
    obtain ⟨key, old⟩ := entry
    by_cases same : key = name
    · simp [insert, same]
    · have behind : name ∈ entries.map (·.1) := by
        rcases List.mem_cons.mp h with here | behind
        · exact absurd here.symm same
        · exact behind
      simp [insert, same, ih behind]

theorem insert_of_not_mem (h : name ∉ entries.map (·.1)) :
    insert name new entries = entries ++ [(name, new)] := by
  induction entries with
  | nil => rfl
  | cons entry entries ih =>
    obtain ⟨key, old⟩ := entry
    obtain ⟨other, behind⟩ := not_or.mp (mt List.mem_cons.mpr h)
    simp [insert, Ne.symm other, ih behind]

theorem nodup_keys_insert (h : (entries.map (·.1)).Nodup) :
    ((insert name new entries).map (·.1)).Nodup := by
  by_cases mem : name ∈ entries.map (·.1)
  · rw [keys_insert_of_mem mem]
    exact h
  · rw [insert_of_not_mem mem, List.map_append]
    refine List.nodup_append.mpr ⟨h, by simp, ?_⟩
    rintro key hk _ hn rfl
    obtain rfl := List.mem_singleton.mp hn
    exact mem hk

theorem insert_insert : insert name new (insert name old entries) = insert name new entries := by
  induction entries with
  | nil => simp [insert]
  | cons entry entries ih =>
    by_cases same : entry.1 = name
    · simp [insert, same]
    · simp [insert, same, ih]

/-- A name that has a place can be given its details before or after another name. -/
theorem insert_comm (other : key ≠ name) (h : name ∈ entries.map (·.1)) :
    insert name new (insert key old entries) = insert key old (insert name new entries) := by
  induction entries with
  | nil => cases h
  | cons entry entries ih =>
    obtain ⟨first, details⟩ := entry
    by_cases same : first = name
    · simp [insert, same, Ne.symm other]
    · have behind : name ∈ entries.map (·.1) := by
        rcases List.mem_cons.mp h with here | behind
        · exact absurd here.symm same
        · exact behind
      by_cases first_key : first = key
      · simp [insert, first_key, other]
      · simp [insert, same, first_key, ih behind]

/-- Later details for a name with a place do not wait for names that are put in meanwhile. -/
theorem insert_insertAll (fresh : name ∉ more.map (·.1)) (h : name ∈ entries.map (·.1)) :
    insert name new (insertAll entries more) = insertAll (insert name new entries) more := by
  induction more generalizing entries with
  | nil => rfl
  | cons entry more ih =>
    obtain ⟨other, behind⟩ := not_or.mp (mt List.mem_cons.mpr fresh)
    have kept : name ∈ (insert entry.1 entry.2 entries).map (·.1) :=
      (keys_insert entry.1 entry.2 entries).subset h
    change insert name new (insertAll (insert entry.1 entry.2 entries) more) =
      insertAll (insert entry.1 entry.2 (insert name new entries)) more
    rw [ih behind kept, insert_comm (Ne.symm other) h]

/-- Putting in a definition last is putting it in place in what is put in. -/
theorem insertAll_insert (h : (more.map (·.1)).Nodup) :
    insertAll entries (insert name new more) = insert name new (insertAll entries more) := by
  induction more generalizing entries with
  | nil => rfl
  | cons entry more ih =>
    obtain ⟨key, old⟩ := entry
    obtain ⟨fresh, nodup⟩ := List.nodup_cons.mp h
    by_cases same : key = name
    · subst same
      simp only [insert]
      change insertAll (insert key new entries) more =
        insert key new (insertAll (insert key old entries) more)
      rw [insert_insertAll fresh (mem_keys_insert _ _ _), insert_insert]
    · simp only [insert, if_neg same]
      exact ih nodup

end Entries

@[simp] theorem merge_empty (a : Analysis) : a.merge .empty = a := by
  simp [merge, insertAll, empty]

theorem merge_addUsage (a b : Analysis) (name : Text) (span : Span) :
    a.merge (b.addUsage name span) = (a.merge b).addUsage name span := by
  simp [merge, addUsage]

theorem merge_addLocal (a b : Analysis) (name : Text) (span : Span) :
    a.merge (b.addLocal name span) = (a.merge b).addLocal name span := by
  simp [merge, addLocal]

theorem merge_define (a : Analysis) {b : Analysis} (h : b.Keyed) (name : Text)
    (kind : DefinitionKind) (span : Span) :
    a.merge (b.define name kind span) = (a.merge b).define name kind span := by
  simp [merge, define, insertAll_insert h]

theorem keyed_empty : Keyed .empty := List.nodup_nil

theorem Keyed.define {a : Analysis} (h : a.Keyed) (name : Text) (kind : DefinitionKind)
    (span : Span) : (a.define name kind span).Keyed :=
  nodup_keys_insert h

end Analysis

namespace Explorer

def behind (a : Analysis) (e : Explorer) : Explorer := ⟨e.scopes, a.merge e.analysis⟩

section Records

variable {a : Analysis} {e : Explorer} {name : Text} {kind : DefinitionKind} {span : Span}

theorem keyed_use (h : e.analysis.Keyed) : (e.use name span).analysis.Keyed := by
  unfold use
  split
  · exact h
  · exact h

theorem keyed_define (h : e.analysis.Keyed) : (e.define name kind span).analysis.Keyed := by
  unfold define
  split
  · exact h
  · exact h.define name kind span

theorem keyed_bind (h : e.analysis.Keyed) : (e.bind name span).analysis.Keyed := by
  unfold bind
  split
  · exact h
  · exact h

theorem keyed_assign (h : e.analysis.Keyed) : (e.assign name kind span).analysis.Keyed := by
  unfold assign
  split
  · exact h
  · split
    · exact h
    · exact h.define name kind span
    · split
      · exact h
      · exact h.define name kind span

theorem use_behind : (e.behind a).use name span = (e.use name span).behind a := by
  unfold use
  split
  · rfl
  · simp only [behind, Analysis.merge_addUsage]

theorem define_behind (h : e.analysis.Keyed) :
    (e.behind a).define name kind span = (e.define name kind span).behind a := by
  unfold define
  split
  · rfl
  · simp only [behind, Analysis.merge_define a h]

theorem bind_behind : (e.behind a).bind name span = (e.bind name span).behind a := by
  unfold bind
  split
  · rfl
  · simp only [behind, Analysis.merge_addLocal]

/-- The stack alone decides what becomes of the name. -/
theorem assign_behind (h : e.analysis.Keyed) :
    (e.behind a).assign name kind span = (e.assign name kind span).behind a := by
  have scopes : (e.behind a).scopes = e.scopes := rfl
  unfold assign
  rw [scopes]
  split
  · rfl
  · split
    · rfl
    · simp only [behind, Analysis.merge_define a h]
    · split
      · simp only [behind, Analysis.merge_addLocal]
      · simp only [behind, Analysis.merge_define a h]

end Records

end Explorer

namespace Effect

variable {document : Text} {a : Analysis} {e : Explorer}

theorem run_keyed (effect : Effect) (h : e.analysis.Keyed) :
    (effect.run document e).2.analysis.Keyed := by
  induction effect using Effect.induct generalizing e with
  | use span =>
    rw [run]
    exact @withText_keeps _ (·.analysis.Keyed) _ _ _ h fun _ => Explorer.keyed_use h
  | assign kind span =>
    rw [run]
    exact @withText_keeps _ (·.analysis.Keyed) _ _ _ h fun _ => Explorer.keyed_assign h
  | bind span =>
    rw [run]
    exact @withText_keeps _ (·.analysis.Keyed) _ _ _ h fun _ => Explorer.keyed_bind h
  | define kind span =>
    rw [run]
    exact @withText_keeps _ (·.analysis.Keyed) _ _ _ h fun _ => Explorer.keyed_define h
  | declareGlobal span =>
    rw [run]
    exact @withText_keeps _ (·.analysis.Keyed) _ _ _ h fun _ => h
  | update operator target =>
    exact @update_keeps _ (·.analysis.Keyed) _ _ _ h fun _ _ => Explorer.keyed_assign h
  | inFrame kind body ih =>
    rw [run]
    exact @runAll_keeps _ (·.analysis.Keyed) _ body (fun effect he _ => ih effect he) h

def behind (a : Analysis) (result : Except ExploreError Unit × Explorer) :
    Except ExploreError Unit × Explorer :=
  (result.1, result.2.behind a)

theorem withText_behind {span : Span} {next other : Text → Explorer}
    (h : ∀ text, next text = (other text).behind a) :
    withText document span (e.behind a) next = behind a (withText document span e other) := by
  unfold withText
  split
  · rfl
  · rw [h]
    rfl

theorem runAll_behind_of {effects : List Effect}
    (step : ∀ effect ∈ effects, ∀ e : Explorer, e.analysis.Keyed →
      effect.run document (e.behind a) = behind a (effect.run document e))
    (h : e.analysis.Keyed) :
    runAll document effects (e.behind a) = behind a (runAll document effects e) := by
  induction effects generalizing e with
  | nil =>
    rw [runAll, runAll]
    rfl
  | cons effect effects ih =>
    have kept : (effect.run document e).2.analysis.Keyed := run_keyed effect h
    rw [runAll, runAll, step effect (by simp) e h]
    generalize effect.run document e = result at kept
    obtain ⟨outcome, next⟩ := result
    cases outcome with
    | error error => rfl
    | ok => exact ih (fun other ho => step other (by simp [ho])) kept

/-- What an effect does to scopes, whether it fails and what it records are the same whatever has
been recorded before. -/
theorem run_behind (effect : Effect) (h : e.analysis.Keyed) :
    effect.run document (e.behind a) = behind a (effect.run document e) := by
  induction effect using Effect.induct generalizing e with
  | use span =>
    rw [run, run]
    exact withText_behind fun _ => Explorer.use_behind
  | assign kind span =>
    rw [run, run]
    exact withText_behind fun _ => Explorer.assign_behind h
  | bind span =>
    rw [run, run]
    exact withText_behind fun _ => Explorer.bind_behind
  | define kind span =>
    rw [run, run]
    exact withText_behind fun _ => Explorer.define_behind h
  | declareGlobal span =>
    rw [run, run]
    exact withText_behind fun _ => rfl
  | update operator target =>
    rw [run, run]
    split
    · rfl
    · split
      · rfl
      · split
        · rfl
        · exact withText_behind fun _ => Explorer.assign_behind h
  | inFrame kind body ih =>
    have inside := runAll_behind_of (e := { e with scopes := e.scopes.push kind })
      (fun effect he _ => ih effect he) h
    rw [run, run]
    exact congrArg (fun result => (result.1, { result.2 with scopes := result.2.scopes.pop })) inside

theorem runAll_behind (effects : List Effect) (scopes : ScopeStack) (a : Analysis) :
    runAll document effects ⟨scopes, a⟩ = behind a (runAll document effects ⟨scopes, .empty⟩) := by
  have start : (⟨scopes, a⟩ : Explorer) = Explorer.behind a ⟨scopes, .empty⟩ := by
    simp [Explorer.behind]
  rw [start]
  exact runAll_behind_of (fun effect _ _ => run_behind effect) Analysis.keyed_empty

theorem runAll_append (effects more : List Effect) (e : Explorer) :
    runAll document (effects ++ more) e =
      match runAll document effects e with
      | (.ok (), next) => runAll document more next
      | (.error error, next) => (.error error, next) := by
  induction effects generalizing e with
  | nil => rw [List.nil_append, runAll]
  | cons effect effects ih =>
    rw [List.cons_append, runAll, runAll]
    generalize effect.run document e = result
    obtain ⟨outcome, next⟩ := result
    cases outcome with
    | error error => rfl
    | ok => exact ih next

/-- Outside all frames nothing is left behind in the stack. -/
theorem runAll_unframed (effects : List Effect) (a : Analysis) :
    (runAll document effects ⟨.empty, a⟩).2.scopes = .empty := by
  have depth := (runAll_extends document effects ⟨.empty, a⟩).scopes.depth
  exact congrArg ScopeStack.mk (List.length_eq_zero_iff.mp depth)

end Effect

theorem explore_of_runs {document : Text} {node : Node} {e : Explorer}
    (fits : node.span.stop ≤ document.byteSize)
    (h : Effect.runAll document (node.effects false) ⟨.empty, .empty⟩ = (.ok (), e)) :
    explore document .empty false node = .ok e.analysis := by
  simp [explore, Nat.not_lt.mpr fits, h]

/-- Statements that follow one another record what each of them records alone. -/
theorem runAll_statements {document : Text} {nodes : List Node}
    (fits : ∀ node ∈ nodes, node.span.stop ≤ document.byteSize) {a : Analysis} {e : Explorer}
    (h : Effect.runAll document (nodes.flatMap (Node.effects false)) ⟨.empty, a⟩ = (.ok (), e)) :
    ∃ parts : List Analysis, nodes.map (explore document .empty false) = parts.map .ok ∧
      e.analysis = parts.foldl Analysis.merge a := by
  induction nodes generalizing a with
  | nil =>
    rw [List.flatMap_nil, Effect.runAll] at h
    cases h
    exact ⟨[], rfl, rfl⟩
  | cons node nodes ih =>
    rw [List.flatMap_cons, Effect.runAll_append, Effect.runAll_behind] at h
    have scopes := @Effect.runAll_unframed document (node.effects false) .empty
    have alone := @explore_of_runs document node
    generalize Effect.runAll document (node.effects false) ⟨.empty, .empty⟩ = first at h scopes alone
    obtain ⟨outcome, next⟩ := first
    cases outcome with
    | error error => cases h
    | ok =>
      have rest : Effect.runAll document (nodes.flatMap (Node.effects false))
          ⟨next.scopes, a.merge next.analysis⟩ = (.ok (), e) := h
      rw [scopes] at rest
      obtain ⟨parts, explored, merged⟩ := ih (fun other ho => fits other (by simp [ho])) rest
      refine ⟨next.analysis :: parts, ?_, merged⟩
      rw [List.map_cons, List.map_cons, explored, alone (fits node (by simp)) rfl]

theorem effects_sourceFile (span : Span) (children : List Node) :
    Node.effects false ⟨.sourceFile, span, children⟩ = children.flatMap (Node.effects false) := by
  have roles : (Node.reading ⟨.sourceFile, span, children⟩).roles.value =
      Reading.values (Node.readings children) := by
    rw [Node.reading]
    rfl
  have alone : Node.effects false = fun node => node.reading.roles.value := by
    funext node
    simp [Node.effects]
  simp [alone, roles, Reading.values, readings_eq, List.flatMap_map]

/-- If a file can be explored then so can each of its statements alone, and the analysis of the file
is theirs, merged from the first to the last. In general, from any scopes and any analysis, a node
has the outcome, changes the stack and records what it does from an empty analysis. -/
theorem statements_independent (document : Text) :
    (∀ root : Node, root.kind = .sourceFile →
      (∀ node ∈ root :: root.children, node.span.stop ≤ document.byteSize) →
      ∀ analysis, explore document .empty false root = .ok analysis →
        ∃ parts : List Analysis,
          root.children.map (explore document .empty false) = parts.map .ok ∧
            analysis = parts.foldl Analysis.merge .empty) ∧
    ∀ (node : Node) (quoted : Bool) (scopes : ScopeStack) (a : Analysis),
      Effect.runAll document (node.effects quoted) ⟨scopes, a⟩ =
        let alone := Effect.runAll document (node.effects quoted) ⟨scopes, .empty⟩
        (alone.1, ⟨alone.2.scopes, a.merge alone.2.analysis⟩) := by
  constructor
  · rintro ⟨kind, span, children⟩ rfl fits analysis ok
    unfold explore at ok
    split at ok
    · cases ok
    · split at ok
      · next e run =>
        cases ok
        rw [effects_sourceFile] at run
        exact runAll_statements (fun node hn => fits node (by simp [hn])) run
      · cases ok
  · exact fun node quoted scopes a => Effect.runAll_behind (node.effects quoted) scopes a

def assignTwice : Text := ['x', '=', 'y', '\n', 'x', '=', 'z']

/-- The second line alone defines the name at its own place. Behind the first it takes over the
definition. -/
theorem assign_twice_merges :
    let first : Analysis := ⟨[(['x'], ⟨.variableName, ⟨0, 1⟩⟩)], [⟨['y'], ⟨2, 3⟩⟩], []⟩
    let second : Analysis := ⟨[(['x'], ⟨.variableName, ⟨4, 5⟩⟩)], [⟨['z'], ⟨6, 7⟩⟩], []⟩
    let root := parse assignTwice
    root.children.map (explore assignTwice .empty false) = [.ok first, .ok second] ∧
      explore assignTwice .empty false root = .ok (first.merge second) ∧
      (first.merge second).definitions = second.definitions := by
  intro first second root
  have explored : explore assignTwice .empty false root = .ok
      ⟨[(['x'], ⟨.variableName, ⟨4, 5⟩⟩)], [⟨['y'], ⟨2, 3⟩⟩, ⟨['z'], ⟨6, 7⟩⟩], []⟩ :=
    eq_ok_of_toOption (by decide +kernel)
  have statements : (root.children.map (explore assignTwice .empty false)).map Except.toOption =
      [some first, some second] := by decide +kernel
  obtain ⟨parts, alone, merged⟩ := (statements_independent assignTwice).1 root (by decide +kernel)
    (by decide +kernel) _ explored
  have found : parts = [first, second] := by
    rw [alone, List.map_map] at statements
    exact List.map_inj_right (fun _ _ => Option.some.inj) |>.mp statements
  subst found
  refine ⟨alone, ?_, by decide⟩
  rw [explored, merged]
  exact congrArg Except.ok (by decide)

end CellBindings
