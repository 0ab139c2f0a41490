import CellBindings.Proofs.EffectLaws

/-!
The places that effects name. Every span in the effects of a tree is the span of a node of it, and
only the names in a macro definition are assigned as macros.
-/

namespace CellBindings

/-- The effect names only the given spans, and assigns as macros only some of them. -/
inductive Effect.Stems (spans macros : Span → Prop) : Effect → Prop where
  | use {span} : spans span → Stems spans macros (.use span)
  | assign {kind span} : spans span → (kind = .macroName → macros span) →
      Stems spans macros (.assign kind span)
  | bind {span} : spans span → Stems spans macros (.bind span)
  | define {kind span} : kind.IsDeclared → spans span → Stems spans macros (.define kind span)
  | declareGlobal {span} : spans span → Stems spans macros (.declareGlobal span)
  | update {operator target} : spans operator → (∀ span ∈ target, spans span) →
      Stems spans macros (.update operator target)
  | inFrame {kind body} : (∀ effect ∈ body, Stems spans macros effect) →
      Stems spans macros (.scoped kind body)

def Node.NamesMacro (root : Node) (span : Span) : Prop :=
  ∃ d ∈ root.preorder, d.kind = .macroDefinition ∧
    ∃ name ∈ Reading.definedName? (readings d.children), name.span = span

section Stemming

variable {spans macros : Span → Prop}

theorem stems_admits : Law.Admits ⟨Effect.Stems spans macros, spans, True⟩ := by
  constructor
  · intro span hs
    exact .use hs
  · intro kind span hk hs
    exact .assign hs fun isMacro => absurd isMacro hk
  · intro kind span hk hs
    exact .define hk hs
  · intro operator target ho ht
    exact .update ho ht
  · intro span _ hs
    exact .bind hs

/-- The effects of a tree stem from the spans of its nodes, and those that assign a macro from the
names of the macros that it defines. -/
theorem effects_stem (node : Node) (hs : ∀ n ∈ node.preorder, spans n.span)
    (hm : ∀ span, node.NamesMacro span → macros span) (quoted : Bool) :
    ∀ effect ∈ node.effects quoted, effect.Stems spans macros := by
  apply effects_obey stems_admits node hs
  intro n hn
  constructor
  · intro _ scope body inside
    exact .inFrame inside
  · intro _
    trivial
  · intro _ span hg
    exact .declareGlobal hg
  · intro kind name named hp
    exact .assign hp fun _ => hm name.span ⟨n, hn, kind, name, named, rfl⟩

end Stemming

end CellBindings
