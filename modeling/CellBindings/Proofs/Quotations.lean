import Mathlib.Data.List.Basic
import CellBindings.Proofs.EffectPlaces
import CellBindings.Proofs.IndependentStatements

/-!
Quotations hide what they quote. Exploring a quoted tree is the same as exploring what stands in its
outermost interpolations, one part after the other: whether it fails, what it records and what it
does to the scopes depend neither on the rest of the tree nor on the text of that rest.
-/

namespace CellBindings

namespace Node

mutual

/-- The interpolations of a tree that stand in no other one, in source order. -/
def interpolations : Node → List Node
  | ⟨kind, span, children⟩ =>
    if kind = .interpolation then [⟨kind, span, children⟩] else allInterpolations children

def allInterpolations : List Node → List Node
  | [] => []
  | node :: rest => interpolations node ++ allInterpolations rest

end

theorem allInterpolations_eq (nodes : List Node) :
    allInterpolations nodes = nodes.flatMap interpolations := by
  induction nodes with
  | nil => rw [allInterpolations, List.flatMap_nil]
  | cons node nodes ih => rw [allInterpolations, ih, List.flatMap_cons]

theorem interpolations_self {node : Node} (h : node.kind = .interpolation) :
    node.interpolations = [node] := by
  obtain ⟨kind, span, children⟩ := node
  exact if_pos h

theorem interpolations_below {node : Node} (h : node.kind ≠ .interpolation) :
    node.interpolations = node.children.flatMap interpolations := by
  obtain ⟨kind, span, children⟩ := node
  rw [← allInterpolations_eq]
  exact if_neg h

/-- An outermost interpolation is an interpolation of the tree. -/
theorem mem_interpolations {node inner : Node} (h : inner ∈ node.interpolations) :
    inner ∈ node.preorder ∧ inner.kind = .interpolation := by
  induction node using Node.induct with
  | node kind span children ih =>
    by_cases hk : kind = .interpolation
    · rw [interpolations_self hk] at h
      obtain rfl := List.mem_singleton.mp h
      exact ⟨mem_preorder.mpr (.inl rfl), hk⟩
    · rw [interpolations_below hk] at h
      obtain ⟨child, hc, hi⟩ := List.mem_flatMap.mp h
      obtain ⟨below, kind⟩ := ih child hc hi
      exact ⟨mem_preorder.mpr (.inr ⟨child, hc, below⟩), kind⟩

theorem interpolations_eq_nil {node : Node} (h : ∀ n ∈ node.preorder, n.kind ≠ .interpolation) :
    node.interpolations = [] := by
  apply List.eq_nil_iff_forall_not_mem.mpr
  intro inner hi
  obtain ⟨below, kind⟩ := mem_interpolations hi
  exact h inner below kind

theorem effects_quoted (node : Node) : node.effects true = node.reading.roles.quoted := rfl

/-- The effects of a quoted tree are the values of what stands in its outermost interpolations. -/
theorem effects_interpolations (node : Node) :
    node.effects true =
      (node.interpolations.flatMap (·.children)).flatMap (Node.effects false) := by
  induction node using Node.induct with
  | node kind span children ih =>
    rw [effects_quoted, reading]
    change Reading.quotedEffects kind (readings children) = _
    rw [readings_eq]
    by_cases hk : kind = .interpolation
    · rw [Reading.quotedEffects, if_pos hk, interpolations_self hk, Reading.values,
        List.flatMap_map, List.flatMap_singleton]
      rfl
    · rw [Reading.quotedEffects, if_neg hk, interpolations_below hk, List.flatMap_map,
        List.flatMap_assoc, List.flatMap_assoc]
      apply List.flatMap_congr
      intro child hc
      rw [← effects_quoted, ih child hc, List.flatMap_assoc]

end Node

def exploreEach (document : Text) :
    List Node → Explorer → Except ExploreError Unit × Explorer
  | [], e => (.ok (), e)
  | node :: rest, e =>
    match Effect.runAll document (node.effects false) e with
    | (.ok (), next) => exploreEach document rest next
    | (.error error, next) => (.error error, next)

theorem runAll_exploreEach (document : Text) (nodes : List Node) (e : Explorer) :
    Effect.runAll document (nodes.flatMap (Node.effects false)) e =
      exploreEach document nodes e := by
  induction nodes generalizing e with
  | nil => rw [List.flatMap_nil, Effect.runAll, exploreEach]
  | cons node nodes ih =>
    rw [List.flatMap_cons, Effect.runAll_append, exploreEach]
    generalize Effect.runAll document (node.effects false) e = first
    obtain ⟨outcome, next⟩ := first
    cases outcome with
    | error error => rfl
    | ok => exact ih next

section Agreement

variable {document other : Text} {spans macros : Span → Prop}

theorem runAll_agrees {effects : List Effect}
    (h : ∀ effect ∈ effects, ∀ e, effect.run document e = effect.run other e) (e : Explorer) :
    Effect.runAll document effects e = Effect.runAll other effects e := by
  induction effects generalizing e with
  | nil => rw [Effect.runAll, Effect.runAll]
  | cons effect effects ih =>
    rw [Effect.runAll, Effect.runAll, h effect (by simp)]
    generalize effect.run other e = first
    obtain ⟨outcome, next⟩ := first
    cases outcome with
    | error error => rfl
    | ok => exact ih (fun effect he => h effect (by simp [he])) next

theorem withText_agrees {span : Span} (h : document.slice? span = other.slice? span)
    (e : Explorer) (next : Text → Explorer) :
    Effect.withText document span e next = Effect.withText other span e next := by
  rw [Effect.withText, Effect.withText, h]

/-- An effect looks at the document only at the spans it stems from. -/
theorem Effect.Stems.agrees {effect : Effect} (h : effect.Stems spans macros)
    (same : ∀ span, spans span → document.slice? span = other.slice? span) (e : Explorer) :
    effect.run document e = effect.run other e := by
  induction h generalizing e with
  | use hs | bind hs | declareGlobal hs =>
    rw [Effect.run, Effect.run, withText_agrees (same _ hs)]
  | assign hs _ => rw [Effect.run, Effect.run, withText_agrees (same _ hs)]
  | define _ hs => rw [Effect.run, Effect.run, withText_agrees (same _ hs)]
  | @update operator target ho ht =>
    rw [Effect.run, Effect.run, same operator ho]
    cases target with
    | none => rfl
    | some span => simp only [withText_agrees (same span (ht span rfl))]
  | inFrame _ ih =>
    rw [Effect.run, Effect.run, runAll_agrees fun effect he => ih effect he]

end Agreement

/-- Nodes are explored alike in documents that agree on the text of all nodes below them. -/
theorem exploreEach_agrees {document other : Text} {nodes : List Node}
    (same : ∀ node ∈ nodes, ∀ n ∈ node.preorder, document.slice? n.span = other.slice? n.span)
    (e : Explorer) : exploreEach document nodes e = exploreEach other nodes e := by
  rw [← runAll_exploreEach, ← runAll_exploreEach]
  apply runAll_agrees
  intro effect he e
  obtain ⟨node, hn, he⟩ := List.mem_flatMap.mp he
  have stems := @effects_stem (fun span => document.slice? span = other.slice? span) (fun _ => True)
    node (same node hn) (fun _ _ => trivial) false effect he
  exact stems.agrees (fun _ h => h) e

/-- From any state, exploring a quoted tree has the outcome and the effect of exploring the children
of its outermost interpolations in source order. So a tree without interpolation does nothing and
never fails, and trees with the same outermost interpolations do the same, in documents that agree on
the text of the nodes in these. -/
theorem quotation_hides (document : Text) (node : Node) (e : Explorer) :
    Effect.runAll document (node.effects true) e =
      exploreEach document (node.interpolations.flatMap (·.children)) e ∧
    ((∀ n ∈ node.preorder, n.kind ≠ .interpolation) →
      Effect.runAll document (node.effects true) e = (.ok (), e)) ∧
    ∀ (twin : Node) (other : Text), twin.interpolations = node.interpolations →
      (∀ inner ∈ node.interpolations, ∀ n ∈ inner.preorder,
        document.slice? n.span = other.slice? n.span) →
      Effect.runAll document (node.effects true) e = Effect.runAll other (twin.effects true) e := by
  have visits (document : Text) (node : Node) : Effect.runAll document (node.effects true) e =
      exploreEach document (node.interpolations.flatMap (·.children)) e := by
    rw [node.effects_interpolations, runAll_exploreEach]
  refine ⟨visits document node, ?_, ?_⟩
  · intro plain
    rw [visits, Node.interpolations_eq_nil plain, List.flatMap_nil, exploreEach]
  · intro twin other alike same
    rw [visits, visits, alike]
    apply exploreEach_agrees
    intro child hc n hn
    obtain ⟨inner, hi, hc⟩ := List.mem_flatMap.mp hc
    exact same inner hi n (Node.mem_preorder.mpr (.inr ⟨child, hc, hn⟩))

def splicedName : Node := ⟨.interpolation, ⟨2, 4⟩, [.leaf .identifier ⟨3, 4⟩]⟩

/-- A call and a sum that quote the same interpolation: of both only the spliced name is read. -/
theorem call_and_sum_quoted :
    let call : Node := ⟨.callExpression, ⟨0, 5⟩, [.leaf .identifier ⟨0, 1⟩, splicedName]⟩
    let sum : Node := ⟨.binaryExpression, ⟨0, 4⟩, [.leaf .integerLiteral ⟨0, 1⟩, splicedName]⟩
    let read : Explorer := ⟨.empty, ⟨[], [⟨['x'], ⟨3, 4⟩⟩], []⟩⟩
    Effect.runAll ['f', '(', '$', 'x', ')'] (call.effects true) ⟨.empty, .empty⟩ = (.ok (), read) ∧
      Effect.runAll ['1', '+', '$', 'x'] (sum.effects true) ⟨.empty, .empty⟩ = (.ok (), read) := by
  intro call sum read
  have alone : Effect.runAll ['f', '(', '$', 'x', ')'] (call.effects true) ⟨.empty, .empty⟩ =
      (.ok (), read) := rfl
  have alike := (quotation_hides ['f', '(', '$', 'x', ')'] call ⟨.empty, .empty⟩).2.2 sum
    ['1', '+', '$', 'x'] rfl (by decide)
  exact ⟨alone, alike ▸ alone⟩

end CellBindings
