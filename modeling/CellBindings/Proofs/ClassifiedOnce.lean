import Mathlib.Algebra.Ring.Nat
import CellBindings.Proofs.ConfinedNames
import CellBindings.Proofs.NameTokens
import CellBindings.Proofs.PlacedNodes
import CellBindings.Proofs.ShapedRules
import CellBindings.Proofs.TruthfulAnalysis

/-!
No name is classified twice. The places of a tree mention each name in it at most once to read it
and at most once to bind it, and only an updating assignment does both. Carrying out the effects
records no more than they mention.
-/

namespace CellBindings

open Effect (count countAll)
open Node (mentionsAll)

section Bounds

variable {span : Span}

def Node.names (span : Span) (node : Node) : Nat :=
  node.preorder.countP fun n => n.kind.isImportable && n.span == span

theorem names_eq (node : Node) :
    node.names span = (if node.kind.isImportable = true ∧ node.span = span then 1 else 0) +
      (node.children.map (Node.names span)).sum := by
  have below : (Node.preorderAll node.children).countP
      (fun n => n.kind.isImportable && n.span == span) =
        (node.children.map (Node.names span)).sum := by
    rw [Node.preorderAll_eq, List.countP_flatMap]
    rfl
  rw [Node.names, countP_preorder, below, Nat.add_comm]
  simp

/-- What holds of each child that is looked at adds up. -/
theorem mentionsAll_add_le {site other : Site} {place : Place} {parent : Node} {index : Nat}
    {nodes : List Node} {bound : Node → Nat}
    (h : ∀ i child inner, nodes[i]? = some child →
      place.inside parent (index + i) child = some inner →
      child.mentions site inner + child.mentions other inner ≤ bound child) :
    mentionsAll site place parent index nodes + mentionsAll other place parent index nodes ≤
      (nodes.map bound).sum := by
  induction nodes generalizing index with
  | nil => simp
  | cons child rest ih =>
    have behind := @ih (index + 1) fun i node inner hn hi =>
      h (i + 1) node inner (by simpa using hn) (by simpa [Nat.add_assoc, Nat.add_comm 1] using hi)
    have first : ((place.inside parent index child).elim 0 fun inner => child.mentions site inner) +
        ((place.inside parent index child).elim 0 fun inner => child.mentions other inner) ≤
          bound child := by
      cases hi : place.inside parent index child with
      | none => simp
      | some inner => exact h 0 child inner rfl (by simpa using hi)
    simp only [mentionsAll_cons, List.map_cons, List.sum_cons]
    omega

theorem mentionsAll_ne_zero {site : Site} {place : Place} {parent : Node} {index : Nat}
    {nodes : List Node} (h : mentionsAll site place parent index nodes ≠ 0) :
    ∃ i child inner, nodes[i]? = some child ∧
      place.inside parent (index + i) child = some inner ∧ child.mentions site inner ≠ 0 := by
  induction nodes generalizing index with
  | nil => simp at h
  | cons node nodes ih =>
    rw [mentionsAll_cons] at h
    by_cases first : ((place.inside parent index node).elim 0 fun inner =>
        node.mentions site inner) = 0
    · obtain ⟨i, child, inner, hc, hi, mentioned⟩ := @ih (index + 1) (by omega)
      exact ⟨i + 1, child, inner, by simpa using hc,
        by simpa [Nat.add_assoc, Nat.add_comm 1] using hi, mentioned⟩
    · cases hi : place.inside parent index node with
      | none => simp [hi] at first
      | some inner =>
        rw [hi] at first
        exact ⟨0, node, inner, rfl, hi, first⟩

/-- What a node mentions by itself is its own name, or the left side of an update. -/
theorem own_cases {place : Place} {node : Node} {site : Site} (fits : place.Fits node.kind)
    (h : place.own node = some site) :
    (site.mention ≠ .update ∧ node.kind.isImportable = true ∧ site.span = node.span) ∨
      (place = .value ∧ node.kind = .compoundAssignment ∧ ∃ left ∈ node.children.head?,
        left.kind = .identifier ∧ site = ⟨.update, left.span⟩) := by
  have bound {p : Prop} [Decidable p] (importable : p → node.kind.isImportable = true)
      (h : (if p then some (⟨.bind, node.span⟩ : Site) else none) = some site) :
      site.mention ≠ .update ∧ node.kind.isImportable = true ∧ site.span = node.span := by
    split at h
    · next hp =>
      cases h
      exact ⟨by simp, importable hp, rfl⟩
    · cases h
  have name : node.kind = .identifier → node.kind.isImportable = true := by
    intro hk
    rw [hk]
    rfl
  cases place with
  | value =>
    simp only [Place.own] at h
    split at h
    · next hk =>
      cases h
      exact .inl ⟨by simp, by rw [hk]; rfl, rfl⟩
    · next hk =>
      cases h
      exact .inl ⟨by simp, by rw [hk]; rfl, rfl⟩
    · next hk =>
      obtain ⟨left, hl, h⟩ := Option.bind_eq_some_iff.mp h
      split at h
      · next identifier =>
        cases h
        exact .inr ⟨rfl, hk, left, hl, identifier, rfl⟩
      · cases h
    · cases h
  | target _ | parameter | typeVariable | head _ | typeName _ => exact .inl (bound name h)
  | bareCallee _ =>
    refine .inl (bound ?_ h)
    rintro (hk | hk)
    · exact name hk
    · rw [hk]
      rfl
  | declared _ =>
    cases h
    exact .inl ⟨by simp, fits, rfl⟩
  | _ => cases h

/-- One name is mentioned in one way. -/
theorem tally_own_le {node : Node} {site : Site} {m m' : Mention} (other : m ≠ m')
    (importable : node.kind.isImportable = true) (hs : site.span = node.span) :
    Site.tally ⟨m, span⟩ site + Site.tally ⟨m', span⟩ site ≤
      if node.kind.isImportable = true ∧ node.span = span then 1 else 0 := by
  obtain ⟨mention, place⟩ := site
  obtain rfl : place = node.span := hs
  by_cases same : node.span = span
  · by_cases first : m = mention
    · subst first
      simp [Site.tally, same, importable, Ne.symm other]
    · simp only [Site.tally, same, importable, Site.mk.injEq, first, if_false, and_true, if_true,
        Nat.zero_add]
      split <;> decide
  · simp [Site.tally, same, Ne.symm same]

/-- The children of a node that has taken its place. -/
theorem children_le {m m' : Mention} {kind : Kind} {own : Span} {children : List Node}
    {taken : Place} (formed : Node.Formed ⟨kind, own, children⟩) (settled : taken.Fits kind)
    (ih : ∀ child ∈ children, ∀ inner : Place, inner.Fits child.kind →
      child.mentions ⟨m, span⟩ inner + child.mentions ⟨m', span⟩ inner ≤ child.names span) :
    mentionsAll ⟨m, span⟩ taken ⟨kind, own, children⟩ 0 children +
        mentionsAll ⟨m', span⟩ taken ⟨kind, own, children⟩ 0 children ≤
      (children.map (Node.names span)).sum := by
  apply mentionsAll_add_le
  intro i child inner hc hi
  rw [Nat.zero_add] at hi
  exact ih child (List.mem_of_getElem? hc) inner (Place.inside_fits formed settled hc hi)

/-- A tree reads or binds no more names than it has. -/
theorem reads_and_binds_le {node : Node} (formed : node.Formed) {place : Place}
    (fits : place.Fits node.kind) :
    node.mentions ⟨.read, span⟩ place + node.mentions ⟨.bind, span⟩ place ≤ node.names span := by
  induction node using Node.induct generalizing place with
  | node kind own children ih =>
    have settled := Place.settle_fits fits
    have below := children_le formed settled fun child hc inner hi =>
      ih child hc (formed.child child hc) hi
    rw [Node.mentions_eq, Node.mentions_eq, names_eq]
    dsimp only at settled below ⊢
    cases found : (place.settle kind).own ⟨kind, own, children⟩ with
    | none =>
      simp only [Option.elim_none]
      omega
    | some site =>
      simp only [Option.elim_some]
      rcases own_cases settled found with ⟨_, importable, hs⟩ | ⟨_, _, left, _, _, rfl⟩
      · have mine := @tally_own_le span _ _ .read .bind (by decide) importable hs
        dsimp only at mine
        omega
      · simp only [Site.tally, Site.mk.injEq, reduceCtorEq, false_and, if_false]
        omega

/-- As a value a name is only read. -/
theorem mentions_name {node : Node} (formed : node.Formed) (name : node.kind = .identifier)
    {m : Mention} (hm : m ≠ .read) : node.mentions ⟨m, span⟩ .value = 0 := by
  have children : node.children = [] := by
    have shape := formed.shape
    rwa [name] at shape
  rw [Node.mentions_eq, children]
  simp [Place.settle, Place.own, name, Site.tally, hm]

/-- A tree binds or updates no more names than it has. -/
theorem binds_and_updates_le {node : Node} (formed : node.Formed) {place : Place}
    (fits : place.Fits node.kind) :
    node.mentions ⟨.bind, span⟩ place + node.mentions ⟨.update, span⟩ place ≤ node.names span := by
  induction node using Node.induct generalizing place with
  | node kind own children ih =>
    have settled := Place.settle_fits fits
    have below := children_le formed settled fun child hc inner hi =>
      ih child hc (formed.child child hc) hi
    rw [Node.mentions_eq, Node.mentions_eq, names_eq]
    dsimp only at settled below ⊢
    cases found : (place.settle kind).own ⟨kind, own, children⟩ with
    | none =>
      simp only [Option.elim_none]
      omega
    | some site =>
      simp only [Option.elim_some]
      rcases own_cases settled found with ⟨_, importable, hs⟩ | ⟨taken, compound, left, hl, name, rfl⟩
      · have mine := @tally_own_le span _ _ .bind .update (by decide) importable hs
        dsimp only at mine
        omega
      · -- the name that is updated is only read as a value
        obtain rfl : kind = .compoundAssignment := compound
        obtain ⟨first, operator, right, rfl, _⟩ := formed.shape
        obtain rfl : first = left := Option.some.inj hl
        have leftFormed := formed.child first (by simp)
        have bound := @mentions_name span first leftFormed name .bind (by decide)
        have updated := @mentions_name span first leftFormed name .update (by decide)
        have behind := @ih right (by simp) (formed.child right (by simp)) .value trivial
        have here : Site.tally ⟨.update, span⟩ ⟨.update, first.span⟩ ≤ first.names span := by
          rw [names_eq, name]
          by_cases same : first.span = span
          · simp [Site.tally, same, Kind.isImportable]
          · simp [Site.tally, Ne.symm same]
        have sides (site : Site) : mentionsAll site .value
            ⟨.compoundAssignment, own, [first, operator, right]⟩ 0 [first, operator, right] =
              first.mentions site .value + right.mentions site .value := by
          simp [Place.inside, Place.valueInside]
        have unbound : Site.tally ⟨.bind, span⟩ ⟨.update, first.span⟩ = 0 := by simp [Site.tally]
        rw [taken, sides, sides]
        simp only [List.map_cons, List.map_nil, List.sum_cons, List.sum_nil]
        omega

/-- Only the left side of an updating assignment is updated. -/
theorem updated_is_left {node : Node} {place : Place} (fits : place.Fits node.kind)
    (formed : node.Formed) (h : node.mentions ⟨.update, span⟩ place ≠ 0) :
    ∃ n ∈ node.preorder, n.kind = .compoundAssignment ∧ ∃ left ∈ n.children.head?,
      left.kind = .identifier ∧ left.span = span := by
  induction node using Node.induct generalizing place with
  | node kind own children ih =>
    have settled := Place.settle_fits fits
    rw [Node.mentions_eq] at h
    dsimp only at settled h
    by_cases mine : ((place.settle kind).own ⟨kind, own, children⟩).elim 0
        (Site.tally ⟨.update, span⟩) = 0
    · have inside : mentionsAll ⟨.update, span⟩ (place.settle kind) ⟨kind, own, children⟩ 0
          children ≠ 0 := by omega
      obtain ⟨i, child, inner, hc, hi, mentioned⟩ := mentionsAll_ne_zero inside
      have member := List.mem_of_getElem? hc
      rw [Nat.zero_add] at hi
      obtain ⟨n, hn, found⟩ := ih child member (Place.inside_fits formed settled hc hi)
        (formed.child child member) mentioned
      exact ⟨n, Node.mem_preorder.mpr (.inr ⟨child, member, hn⟩), found⟩
    · cases found : (place.settle kind).own ⟨kind, own, children⟩ with
      | none => simp [found] at mine
      | some site =>
        rw [found, Option.elim_some] at mine
        obtain rfl : site = ⟨.update, span⟩ := by
          by_cases same : (⟨.update, span⟩ : Site) = site
          · exact same.symm
          · simp [Site.tally, same] at mine
        rcases own_cases settled found with ⟨other, _⟩ | ⟨_, compound, left, hl, name, same⟩
        · exact absurd rfl other
        · refine ⟨_, Node.mem_preorder.mpr (.inl rfl), compound, left, hl, name, ?_⟩
          exact (congrArg Site.span same).symm

theorem countP_apart {nodes : List Node} (apart : nodes.Pairwise Node.Before) :
    nodes.countP (fun n => n.kind.isImportable && n.span == span) ≤ 1 := by
  induction nodes with
  | nil => simp
  | cons node nodes ih =>
    obtain ⟨first, rest⟩ := List.pairwise_cons.mp apart
    rw [List.countP_cons]
    by_cases here : node.span = span
    · have none : nodes.countP (fun n => n.kind.isImportable && n.span == span) = 0 := by
        refine List.countP_eq_zero.mpr ?_
        intro n hn
        have before := (first n hn).1
        have other : n.span ≠ span := by
          intro same
          rw [here, same] at before
          omega
        simp [other]
      rw [none]
      split <;> omega
    · have later := ih rest
      simp only [beq_eq_false_iff_ne.mpr here, Bool.and_false, Bool.false_eq_true, if_false]
      omega

/-- In the tree of a text at most one name stands at a span. -/
theorem parse_names_le (text : Text) (span : Span) : (parse text).names span ≤ 1 := by
  obtain ⟨_, ordered, _⟩ := tokenizeRecovering_wellPlaced text
  obtain ⟨items, listing, _, root⟩ := parse_listing text
  have leaves := (listing.forest 0).imp fun us node hb =>
    (⟨hb, hb.leavesInOrder⟩ : Built us node ∧ LeavesInOrder us node)
  have branch : Kind.IsBranch .sourceFile := by decide
  have apart : ((parse text).preorder.filter Node.isLeafNode).Pairwise Node.Before := by
    rw [root]
    exact @leavesInOrder_branch _ 0 _ ⟨.sourceFile, _, items⟩ branch leaves ordered
  have within : (parse text).names span = ((parse text).preorder.filter Node.isLeafNode).countP
      fun n => n.kind.isImportable && n.span == span := by
    rw [List.countP_filter]
    apply List.countP_congr
    intro n _
    have leaf : n.kind.isImportable = true → n.isLeafNode = true := by
      obtain ⟨kind, _, _⟩ := n
      cases kind <;> simp [Kind.isImportable, Node.isLeafNode, Kind.isLeaf]
    simp only [Bool.and_eq_true]
    constructor
    · exact fun h => ⟨h, leaf h.1⟩
    · exact fun h => h.1
  rw [within]
  exact countP_apart apart

end Bounds

section Recording

variable {document : Text} {span : Span} {e : Explorer}

namespace Analysis

def readsAt (span : Span) (a : Analysis) : Nat := (a.usages.map (·.span)).count span

def bindsAt (span : Span) (a : Analysis) : Nat :=
  (a.locals.map (·.span)).count span + (a.definitions.map (·.2.span)).count span

theorem readsAt_addUsage (a : Analysis) (name : Text) (other : Span) :
    (a.addUsage name other).readsAt span = a.readsAt span + Site.tally ⟨.read, span⟩ ⟨.read, other⟩ := by
  by_cases same : span = other
  · simp [readsAt, addUsage, Site.tally, same]
  · simp [readsAt, addUsage, Site.tally, same, Ne.symm same]

theorem bindsAt_addLocal (a : Analysis) (name : Text) (other : Span) :
    (a.addLocal name other).bindsAt span = a.bindsAt span + Site.tally ⟨.bind, span⟩ ⟨.bind, other⟩ := by
  by_cases same : span = other
  · simp [bindsAt, addLocal, Site.tally, same]
    omega
  · simp [bindsAt, addLocal, Site.tally, same, Ne.symm same]

theorem count_insert_le (name : Text) (new : Definition) (entries : List (Text × Definition)) :
    ((insert name new entries).map (·.2.span)).count span ≤
      (entries.map (·.2.span)).count span + Site.tally ⟨.bind, span⟩ ⟨.bind, new.span⟩ := by
  have tally : ([new.span].count span) = Site.tally ⟨.bind, span⟩ ⟨.bind, new.span⟩ := by
    by_cases same : span = new.span
    · simp [Site.tally, same]
    · simp [Site.tally, same, Ne.symm same]
  induction entries with
  | nil => simp [insert, ← tally]
  | cons entry entries ih =>
    obtain ⟨key, old⟩ := entry
    by_cases same : key = name
    · simp only [insert, same, if_true, List.map_cons, List.count_cons, List.count_nil] at tally ⊢
      omega
    · simp only [insert, same, if_false, List.map_cons, List.count_cons]
      omega

theorem bindsAt_define_le (a : Analysis) (name : Text) (kind : DefinitionKind) (other : Span) :
    (a.define name kind other).bindsAt span ≤
      a.bindsAt span + Site.tally ⟨.bind, span⟩ ⟨.bind, other⟩ := by
  have inserted := @count_insert_le span name ⟨kind, other⟩ a.definitions
  simp only [bindsAt, define] at inserted ⊢
  omega

end Analysis

structure Explorer.Records (span : Span) (reads binds : Nat) (before after : Explorer) : Prop where
  reads : after.analysis.readsAt span ≤ before.analysis.readsAt span + reads
  binds : after.analysis.bindsAt span ≤ before.analysis.bindsAt span + binds

namespace Explorer.Records

variable {name : Text} {kind : DefinitionKind} {other : Span} {reads binds : Nat}

theorem refl (e : Explorer) : Records span reads binds e e := ⟨by omega, by omega⟩

theorem use (e : Explorer) (name : Text) (other : Span) :
    Records span (Site.tally ⟨.read, span⟩ ⟨.read, other⟩) 0 e (e.use name other) := by
  unfold Explorer.use
  split
  · exact refl e
  · exact ⟨Nat.le_of_eq (Analysis.readsAt_addUsage _ _ _), Nat.le_refl _⟩

theorem bind (e : Explorer) (name : Text) (other : Span) :
    Records span 0 (Site.tally ⟨.bind, span⟩ ⟨.bind, other⟩) e (e.bind name other) := by
  unfold Explorer.bind
  split
  · exact refl e
  · exact ⟨Nat.le_refl _, Nat.le_of_eq (Analysis.bindsAt_addLocal _ _ _)⟩

theorem define (e : Explorer) (name : Text) (kind : DefinitionKind) (other : Span) :
    Records span 0 (Site.tally ⟨.bind, span⟩ ⟨.bind, other⟩) e (e.define name kind other) := by
  unfold Explorer.define
  split
  · exact refl e
  · exact ⟨Nat.le_refl _, Analysis.bindsAt_define_le _ _ _ _⟩

theorem assign (e : Explorer) (name : Text) (kind : DefinitionKind) (other : Span) :
    Records span 0 (Site.tally ⟨.bind, span⟩ ⟨.bind, other⟩) e (e.assign name kind other) := by
  unfold Explorer.assign
  split
  · exact refl e
  · split
    · exact refl e
    · exact ⟨Nat.le_refl _, Analysis.bindsAt_define_le _ _ _ _⟩
    · split
      · exact ⟨Nat.le_refl _, Nat.le_of_eq (Analysis.bindsAt_addLocal _ _ _)⟩
      · exact ⟨Nat.le_refl _, Analysis.bindsAt_define_le _ _ _ _⟩

end Explorer.Records

def Effect.Records (document : Text) (span : Span) (effect : Effect) : Prop :=
  ∀ e : Explorer, Explorer.Records span (effect.count ⟨.read, span⟩)
    (effect.count ⟨.bind, span⟩ + effect.count ⟨.update, span⟩) e (effect.run document e).2

theorem runAll_records {effects : List Effect}
    (h : ∀ effect ∈ effects, effect.Records document span) (e : Explorer) :
    Explorer.Records span (countAll ⟨.read, span⟩ effects)
      (countAll ⟨.bind, span⟩ effects + countAll ⟨.update, span⟩ effects) e
      (Effect.runAll document effects e).2 := by
  induction effects generalizing e with
  | nil =>
    rw [Effect.runAll]
    exact .refl e
  | cons effect effects ih =>
    have first := h effect (by simp) e
    rw [Effect.runAll]
    simp only [countAll_cons]
    generalize effect.run document e = result at first
    obtain ⟨outcome, next⟩ := result
    have reads := first.reads
    have binds := first.binds
    dsimp only at reads binds
    cases outcome with
    | error error => exact ⟨by dsimp only; omega, by dsimp only; omega⟩
    | ok =>
      have rest := ih (fun other ho => h other (by simp [ho])) next
      have reads' := rest.reads
      have binds' := rest.binds
      exact ⟨by dsimp only; omega, by dsimp only; omega⟩

theorem run_records (effect : Effect) : effect.Records document span := by
  induction effect using Effect.induct with
  | use other =>
    intro e
    simp only [Effect.run, count_use, Site.tally_of_ne (show Mention.bind ≠ .read by decide),
      Site.tally_of_ne (show Mention.update ≠ .read by decide)]
    exact @Effect.withText_keeps _ (Explorer.Records span _ _ e) _ _ _ (.refl e)
      fun name => .use e name other
  | assign kind other =>
    intro e
    simp only [Effect.run, count_assign, Site.tally_of_ne (show Mention.read ≠ .bind by decide),
      Site.tally_of_ne (show Mention.update ≠ .bind by decide)]
    exact @Effect.withText_keeps _ (Explorer.Records span _ _ e) _ _ _ (.refl e)
      fun name => .assign e _ kind other
  | bind other =>
    intro e
    simp only [Effect.run, count_bind, Site.tally_of_ne (show Mention.read ≠ .bind by decide),
      Site.tally_of_ne (show Mention.update ≠ .bind by decide)]
    exact @Effect.withText_keeps _ (Explorer.Records span _ _ e) _ _ _ (.refl e)
      fun name => .bind e name other
  | define kind other =>
    intro e
    simp only [Effect.run, count_define, Site.tally_of_ne (show Mention.read ≠ .bind by decide),
      Site.tally_of_ne (show Mention.update ≠ .bind by decide)]
    exact @Effect.withText_keeps _ (Explorer.Records span _ _ e) _ _ _ (.refl e)
      fun name => .define e name kind other
  | declareGlobal other =>
    intro e
    rw [Effect.run]
    exact @Effect.withText_keeps _ (Explorer.Records span _ _ e) _ _ _ (.refl e)
      fun name => ⟨by simp [Explorer.declareGlobal], by simp [Explorer.declareGlobal]⟩
  | update operator target =>
    intro e
    rw [Effect.run]
    split
    · exact .refl e
    · cases target with
      | none => exact .refl e
      | some other =>
        simp only [count_update, Option.elim_some,
          Site.tally_of_ne (show Mention.read ≠ .update by decide),
          Site.tally_of_ne (show Mention.bind ≠ .update by decide), Site.tally_span .update .bind,
          Nat.zero_add]
        split
        · exact .refl e
        · exact @Effect.withText_keeps _ (Explorer.Records span _ _ e) _ _ _ (.refl e)
            fun name => .assign e name .variableName other
  | inFrame kind body ih =>
    intro e
    have inside := runAll_records ih { e with scopes := e.scopes.push kind }
    simp only [Effect.run, count_scoped]
    exact ⟨inside.reads, inside.binds⟩

end Recording

/-- What exploring the tree of a text records at a span is bounded by what the tree mentions there. -/
theorem explore_records {text : Text} {enclosing : ScopeStack} {quoted : Bool} {analysis : Analysis}
    (ok : explore text enclosing quoted (parse text) = .ok analysis) (span : Span) :
    let place := if quoted then Place.quoted else .value
    analysis.readsAt span ≤ (parse text).mentions ⟨.read, span⟩ place ∧
      analysis.bindsAt span ≤ (parse text).mentions ⟨.bind, span⟩ place +
        (parse text).mentions ⟨.update, span⟩ place := by
  intro place
  have formed := parse_formed text
  have fits : place.Fits (parse text).kind := by
    simp only [place]
    split <;> trivial
  have effects : (parse text).effects quoted = place.effects (parse text).reading := by
    simp only [place, Node.effects]
    split <;> rfl
  have records := @runAll_records text span ((parse text).effects quoted)
    (fun effect _ => run_records effect) ⟨enclosing, .empty⟩
  simp only [effects, formed.mentionsMatch _ place fits] at records
  rw [← explore_eq_ok ok, effects]
  have reads := records.reads
  have binds := records.binds
  simp only [Analysis.readsAt, Analysis.bindsAt, Analysis.empty, List.map_nil, List.count_nil,
    Nat.zero_add] at reads binds ⊢
  exact ⟨reads, binds⟩

/-- No span is recorded twice as read or twice as bound, and one that is recorded as both is the
left side of an updating assignment. -/
structure Analysis.Once (root : Node) (a : Analysis) : Prop where
  reads : ∀ span, a.readsAt span ≤ 1
  binds : ∀ span, a.bindsAt span ≤ 1
  updates : ∀ span, a.readsAt span ≠ 0 → a.bindsAt span ≠ 0 → ∃ node ∈ root.preorder,
    node.kind = .compoundAssignment ∧ ∃ left ∈ node.children.head?,
      left.kind = .identifier ∧ left.span = span

theorem explore_once {text : Text} {enclosing : ScopeStack} {quoted : Bool} {analysis : Analysis}
    (ok : explore text enclosing quoted (parse text) = .ok analysis) :
    analysis.Once (parse text) := by
  have formed := parse_formed text
  have fits : (if quoted then Place.quoted else .value).Fits (parse text).kind := by
    split <;> trivial
  have recorded := explore_records ok
  generalize (if quoted then Place.quoted else .value) = place at fits recorded
  constructor
  · intro span
    have mentioned := (recorded span).1
    have bounded := @reads_and_binds_le span _ formed place fits
    have single := parse_names_le text span
    omega
  · intro span
    have mentioned := (recorded span).2
    have bounded := @binds_and_updates_le span _ formed place fits
    have single := parse_names_le text span
    omega
  · intro span read bound
    obtain ⟨reads, binds⟩ := recorded span
    have bounded := @reads_and_binds_le span _ formed place fits
    have single := parse_names_le text span
    apply updated_is_left fits formed
    omega

theorem Analysis.Once.withoutLocals {root : Node} {a : Analysis} (h : a.Once root) :
    Analysis.Once root { a with locals := [] } := by
  have fewer : ∀ span, bindsAt span { a with locals := [] } ≤ a.bindsAt span := by
    intro span
    simp [bindsAt]
  constructor
  · exact h.reads
  · intro span
    have all := h.binds span
    have some := fewer span
    omega
  · intro span read bound
    have some := fewer span
    exact h.updates span read (by omega)

theorem count_ne_zero {α : Type} [DecidableEq α] {items : List α} {a : α} (h : a ∈ items) :
    items.count a ≠ 0 :=
  Nat.ne_of_gt (List.count_pos_iff.mpr h)

/-- For every text and all options the analysis succeeds, and it classifies each name at most once:
spans of usages are distinct, spans of locals are distinct, no local stands where a definition does,
and a usage stands where a local or a definition does only if it is the name that an updating
assignment changes. -/
theorem names_classified_once (text : Text) (options : Options) :
    ∃ analysis, analyzeCell text options = .ok analysis ∧
      (analysis.usages.map (·.span)).Nodup ∧ (analysis.locals.map (·.span)).Nodup ∧
      (∀ l ∈ analysis.locals, ∀ entry ∈ analysis.definitions, l.span ≠ entry.2.span) ∧
      ∀ u ∈ analysis.usages,
        (∃ l ∈ analysis.locals, l.span = u.span) ∨
          (∃ entry ∈ analysis.definitions, entry.2.span = u.span) →
        ∃ node ∈ (parse text).preorder, node.kind = .compoundAssignment ∧
          ∃ left ∈ node.children.head?, left.kind = .identifier ∧ left.span = u.span := by
  obtain ⟨full, explored, _⟩ := explore_truthful text options.enclosing options.quoted
  have once := explore_once explored
  obtain ⟨analysis, analyzed, once⟩ : ∃ analysis, analyzeCell text options = .ok analysis ∧
      analysis.Once (parse text) := by
    unfold analyzeCell
    rw [explored]
    refine ⟨_, rfl, ?_⟩
    split
    · exact once
    · exact once.withoutLocals
  refine ⟨analysis, analyzed, List.nodup_iff_count.mpr once.reads, ?_, ?_, ?_⟩
  · refine List.nodup_iff_count.mpr ?_
    intro span
    have bound := once.binds span
    simp only [Analysis.bindsAt] at bound
    omega
  · intro l hl entry he same
    have bound := once.binds l.span
    have first := count_ne_zero (List.mem_map_of_mem (f := fun o : Occurrence => o.span) hl)
    have second := count_ne_zero (List.mem_map_of_mem (f := fun d : Text × Definition => d.2.span) he)
    rw [← same] at second
    simp only [Analysis.bindsAt] at bound
    omega
  · intro u hu recorded
    apply once.updates u.span
    · exact count_ne_zero (List.mem_map_of_mem (f := fun o : Occurrence => o.span) hu)
    · rcases recorded with ⟨l, hl, same⟩ | ⟨entry, he, same⟩
      · have first := count_ne_zero (List.mem_map_of_mem (f := fun o : Occurrence => o.span) hl)
        rw [same] at first
        simp only [Analysis.bindsAt]
        omega
      · have second :=
          count_ne_zero (List.mem_map_of_mem (f := fun d : Text × Definition => d.2.span) he)
        rw [same] at second
        simp only [Analysis.bindsAt]
        omega

end CellBindings
