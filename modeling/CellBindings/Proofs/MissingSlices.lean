import CellBindings.Effect.Run
import CellBindings.Proofs.EffectPlaces

/-!
Where an exploration fails. A tree need not come from a text: its nodes may lack children, stand
under any parent and have any spans. Exploring it still ends, and it fails only if the document is
too short for the root or has no piece of text at the span of some node.
-/

namespace CellBindings

/-- How carrying out effects may end: well, or at one of the given spans, for which the document has
no text. -/
inductive Explained (document : Text) (spans : Span → Prop) : Except ExploreError Unit → Prop where
  | ok : Explained document spans (.ok ())
  | missing {span} : spans span → document.slice? span = none →
      Explained document spans (.error (.invalidRange span))

section Outcomes

variable {document : Text} {spans macros : Span → Prop} {effect : Effect} {effects : List Effect}

theorem withText_explained {span : Span} (h : spans span) (e : Explorer) (next : Text → Explorer) :
    Explained document spans (Effect.withText document span e next).1 := by
  unfold Effect.withText
  split
  · next missing => exact .missing h missing
  · exact .ok

/-- Effects end as the first of them that fails, if there is one. -/
theorem runAll_explained
    (h : ∀ effect ∈ effects, ∀ e, Explained document spans (effect.run document e).1)
    (e : Explorer) : Explained document spans (Effect.runAll document effects e).1 := by
  induction effects generalizing e with
  | nil =>
    rw [Effect.runAll]
    exact .ok
  | cons effect effects ih =>
    have first := h effect List.mem_cons_self e
    rw [Effect.runAll]
    generalize effect.run document e = result at first
    obtain ⟨outcome, next⟩ := result
    cases outcome with
    | error error => exact first
    | ok => exact ih (fun other ho => h other (List.mem_cons_of_mem effect ho)) next

theorem Effect.Stems.explained (h : effect.Stems spans macros) (e : Explorer) :
    Explained document spans (effect.run document e).1 := by
  induction h generalizing e with
  | use hs =>
    rw [Effect.run]
    exact withText_explained hs e _
  | assign hs _ =>
    rw [Effect.run]
    exact withText_explained hs e _
  | bind hs =>
    rw [Effect.run]
    exact withText_explained hs e _
  | define _ hs =>
    rw [Effect.run]
    exact withText_explained hs e _
  | declareGlobal hs =>
    rw [Effect.run]
    exact withText_explained hs e _
  | @update operator target ho ht =>
    rw [Effect.run]
    split
    · next missing => exact .missing ho missing
    · cases target with
      | none => exact .ok
      | some span =>
        dsimp only
        split
        · exact .ok
        · exact withText_explained (ht span rfl) e _
  | inFrame _ ih =>
    rw [Effect.run]
    exact runAll_explained (fun effect he e => ih effect he e) _

end Outcomes

/-- Exploring a tree ends well or at the span of one of its nodes. -/
theorem effects_explained (document : Text) (node : Node) (quoted : Bool) (e : Explorer) :
    Explained document (fun span => ∃ n ∈ node.preorder, n.span = span)
      (Effect.runAll document (node.effects quoted) e).1 := by
  have stems := @effects_stem (fun span => ∃ n ∈ node.preorder, n.span = span) (fun _ => True) node
    (fun n hn => ⟨n, hn, rfl⟩) (fun _ _ => trivial) quoted
  exact runAll_explained (fun effect he e => (stems effect he).explained e) e

inductive Explores (document : Text) (node : Node) : Except ExploreError Analysis → Prop where
  | short : document.byteSize < node.span.stop →
      Explores document node (.error (.documentMismatch node.span.stop document.byteSize))
  | missing {span} : node.span.stop ≤ document.byteSize → (∃ n ∈ node.preorder, n.span = span) →
      document.slice? span = none → Explores document node (.error (.invalidRange span))
  | done {analysis} : node.span.stop ≤ document.byteSize → Explores document node (.ok analysis)

theorem explore_explores (document : Text) (enclosing : ScopeStack) (quoted : Bool) (node : Node) :
    Explores document node (explore document enclosing quoted node) := by
  unfold explore
  split
  · next short => exact .short short
  · next fits =>
    have outcome := effects_explained document node quoted ⟨enclosing, .empty⟩
    generalize Effect.runAll document (node.effects quoted) ⟨enclosing, .empty⟩ = result at outcome
    obtain ⟨outcome, last⟩ := result
    cases outcome with
    | ok => exact .done (by omega)
    | missing span none => exact .missing (by omega) span none

/-- Exploring any tree from any of its nodes ends in one of three ways. It reports that the document
is too short exactly if the node ends behind the document, with both lengths. Otherwise it succeeds
if the document has a piece of text for every node, and whenever it reports a span, that is the span
of some node for which there is no such piece. -/
theorem explore_errors_exact (document : Text) (enclosing : ScopeStack) (quoted : Bool)
    (node : Node) :
    let result := explore document enclosing quoted node
    (result = .error (.documentMismatch node.span.stop document.byteSize) ↔
      document.byteSize < node.span.stop) ∧
    (∀ treeEnd length, result = .error (.documentMismatch treeEnd length) →
      treeEnd = node.span.stop ∧ length = document.byteSize) ∧
    (node.span.stop ≤ document.byteSize →
      (∀ n ∈ node.preorder, (document.slice? n.span).isSome) → ∃ analysis, result = .ok analysis) ∧
    ∀ span, result = .error (.invalidRange span) →
      node.span.stop ≤ document.byteSize ∧
      (∃ n ∈ node.preorder, n.span = span) ∧ document.slice? span = none := by
  intro result
  have ends : Explores document node result := explore_explores document enclosing quoted node
  generalize result = found at ends
  cases ends with
  | short short =>
    refine ⟨by simp [short], ?_, by omega, by simp⟩
    rintro _ _ ⟨⟩
    exact ⟨rfl, rfl⟩
  | @missing span fits named none =>
    refine ⟨by simp [fits], by simp, ?_, ?_⟩
    · intro _ sliced
      obtain ⟨n, hn, rfl⟩ := named
      simpa [none] using sliced n hn
    · rintro _ ⟨⟩
      exact ⟨fits, named, none⟩
  | @done analysis fits => exact ⟨by simp [fits], by simp, fun _ _ => ⟨analysis, rfl⟩, by simp⟩

def loneTarget (span : Span) : Node := ⟨.assignment, ⟨0, 2⟩, [.leaf .identifier span]⟩

/-- In a document of one character with two bytes the name has a text if it spans both of them, and
none if it spans the second one. -/
theorem half_character_missing :
    (∀ n ∈ (loneTarget ⟨0, 2⟩).preorder, (Text.slice? ['é'] n.span).isSome) ∧
    (∃ analysis, explore ['é'] .empty false (loneTarget ⟨0, 2⟩) = .ok analysis) ∧
    explore ['é'] .empty false (loneTarget ⟨1, 2⟩) = .error (.invalidRange ⟨1, 2⟩) ∧
    (∃ n ∈ (loneTarget ⟨1, 2⟩).preorder, n.span = ⟨1, 2⟩) ∧ Text.slice? ['é'] ⟨1, 2⟩ = none := by
  have sliced : ∀ n ∈ (loneTarget ⟨0, 2⟩).preorder, (Text.slice? ['é'] n.span).isSome := by decide
  have failed : explore ['é'] .empty false (loneTarget ⟨1, 2⟩) =
      .error (.invalidRange ⟨1, 2⟩) := rfl
  obtain ⟨_, _, succeeds, _⟩ := explore_errors_exact ['é'] .empty false (loneTarget ⟨0, 2⟩)
  obtain ⟨_, _, _, explains⟩ := explore_errors_exact ['é'] .empty false (loneTarget ⟨1, 2⟩)
  exact ⟨sliced, succeeds (by decide) sliced, failed, (explains _ failed).2⟩

end CellBindings
