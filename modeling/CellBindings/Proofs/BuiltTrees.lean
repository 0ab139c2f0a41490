import CellBindings.Grammar.Statement
import CellBindings.Proofs.ParserReads

/-!
Trees and the tokens they are built from. `Built ts node` says that `node` stands for the run `ts`:
its span is the extent of the run, its children stand for parts of the run in order, and what is
left between them are marks, tokens that are no names. Only unread runs, symbols and the word `as`
of a renaming may hide a name. Empty blocks and lists stand where the tokens before them stop.
-/

namespace CellBindings

open Grammar (isAsWord isSymbolName)

/-- Read for its place only: no name, and nothing left open at the end of the text. -/
def Token.IsMark (t : Token) : Prop :=
  t.kind ≠ .identifier ∧ t.kind ≠ .macroName ∧ t.kind ≠ .error

namespace Kind

def MayBeEmpty (kind : Kind) : Prop := kind = .block ∨ kind = .letBindings ∨ kind = .parameterList

def IsBranch (kind : Kind) : Prop := kind.isLeaf = false ∧ kind ≠ .error

instance (kind : Kind) : Decidable kind.MayBeEmpty :=
  inferInstanceAs (Decidable (_ ∨ _ ∨ _))

instance (kind : Kind) : Decidable kind.IsBranch := inferInstanceAs (Decidable (_ ∧ _))

end Kind

structure LeafOf (kind : Kind) (t : Token) : Prop where
  leaf : kind.isLeaf = true
  single : kind ≠ .symbol
  name : kind = .identifier ↔ t.kind = .identifier
  macroName : kind = .macroIdentifier ↔ t.kind = .macroName
  closed : t.kind ≠ .error

/-- Nodes in a run of tokens that is read from a place on, with marks around them. -/
inductive Forest (mark : Token → Prop) (built : List Token → Node → Prop) :
    Nat → List Token → List Node → Prop where
  | nil {place} : Forest mark built place [] []
  | token {place t ts nodes} : mark t → Forest mark built t.span.stop ts nodes →
      Forest mark built place (t :: ts) nodes
  | node {place us ts node nodes} : built us node →
      Forest mark built (stopAfter place us) ts nodes →
      Forest mark built place (us ++ ts) (node :: nodes)
  | empty {place ts kind nodes} : kind.MayBeEmpty → Forest mark built place ts nodes →
      Forest mark built place ts (⟨kind, .emptyAt place, []⟩ :: nodes)

inductive Built : List Token → Node → Prop where
  | leaf {kind t} : LeafOf kind t → Built [t] ⟨kind, t.span, []⟩
  | symbol {colon t} : colon.isOperator [':'] = true → isSymbolName t = true →
      Built [colon, t] ⟨.symbol, Grammar.between colon t, []⟩
  | unread {ts} : ts ≠ [] → Built ts (Grammar.unread ts)
  | renamed {us t vs path name} : Built us path → isAsWord t = true → Built vs name →
      Built (us ++ t :: vs) ⟨.importAlias, extent (us ++ t :: vs), [path, name]⟩
  | branch {kind ts children} : kind.IsBranch → ts ≠ [] →
      Forest Token.IsMark Built (extent ts).start ts children →
      Built ts ⟨kind, extent ts, children⟩

/-- Induction over a built tree: in a branch, the property holds of every child with its part of
the run. -/
@[elab_as_elim]
theorem Built.induct {P : List Token → Node → Prop}
    (leaf : ∀ {kind t}, LeafOf kind t → P [t] ⟨kind, t.span, []⟩)
    (symbol : ∀ {colon t}, colon.isOperator [':'] = true → isSymbolName t = true →
      P [colon, t] ⟨.symbol, Grammar.between colon t, []⟩)
    (unread : ∀ {ts}, ts ≠ [] → P ts (Grammar.unread ts))
    (renamed : ∀ {us t vs path name}, (Built us path ∧ P us path) → isAsWord t = true →
      (Built vs name ∧ P vs name) →
      P (us ++ t :: vs) ⟨.importAlias, extent (us ++ t :: vs), [path, name]⟩)
    (branch : ∀ {kind ts children}, kind.IsBranch → ts ≠ [] →
      Forest Token.IsMark (fun us node => Built us node ∧ P us node) (extent ts).start ts children →
      P ts ⟨kind, extent ts, children⟩)
    {ts : List Token} {node : Node} (h : Built ts node) : P ts node := by
  refine @Built.rec (fun ts node _ => P ts node)
    (fun place ts nodes _ =>
      Forest Token.IsMark (fun us node => Built us node ∧ P us node) place ts nodes)
    leaf symbol unread ?_ ?_ ?_ ?_ ?_ ?_ ts node h
  · intro us t vs path name hp ha hn ihp ihn
    exact renamed ⟨hp, ihp⟩ ha ⟨hn, ihn⟩
  · intro kind ts children hk hn _ ih
    exact branch hk hn ih
  · exact .nil
  · intro place t ts nodes hm _ ih
    exact .token hm ih
  · intro place us ts node nodes hb _ ihb ih
    exact .node ⟨hb, ihb⟩ ih
  · intro place ts kind nodes hk _ ih
    exact .empty hk ih

theorem Built.ne_nil {ts : List Token} {node : Node} (h : Built ts node) : ts ≠ [] := by
  cases h <;> simp_all

theorem Built.span_eq {ts : List Token} {node : Node} (h : Built ts node) :
    node.span = extent ts := by
  cases h <;> rfl

section Forests

variable {mark : Token → Prop} {built built' : List Token → Node → Prop} {place : Nat}
  {us vs ts : List Token} {nodes : List Node}

theorem Forest.imp (h : ∀ us node, built us node → built' us node)
    (forest : Forest mark built place ts nodes) : Forest mark built' place ts nodes := by
  induction forest with
  | nil => exact .nil
  | token hm _ ih => exact .token hm ih
  | node hb _ ih => exact .node (h _ _ hb) ih
  | empty hk _ ih => exact .empty hk ih

theorem Forest.single {node : Node} (h : built ts node) : Forest mark built place ts [node] := by
  rw [← List.append_nil ts]
  exact .node h .nil

/-- Marks before a forest belong to it. -/
theorem Forest.after_marks (marks : ∀ t ∈ us, mark t)
    (forest : Forest mark built (stopAfter place us) ts nodes) :
    Forest mark built place (us ++ ts) nodes := by
  induction us generalizing place with
  | nil => exact forest
  | cons t us ih =>
    refine .token (marks t (by simp)) (ih (fun u hu => marks u (by simp [hu])) ?_)
    simpa using forest

theorem Forest.of_marks (marks : ∀ t ∈ ts, mark t) : Forest mark built place ts [] := by
  rw [← List.append_nil ts]
  exact .after_marks marks .nil

theorem Forest.append {more : List Node} (front : Forest mark built place us nodes)
    (back : Forest mark built (stopAfter place us) vs more) :
    Forest mark built place (us ++ vs) (nodes ++ more) := by
  induction front with
  | nil => simpa using back
  | token hm _ ih => exact .token hm (ih (by simpa using back))
  | node hb _ ih =>
    rw [stopAfter_append] at back
    rw [List.append_assoc]
    exact .node hb (ih back)
  | empty hk _ ih => exact .empty hk (ih back)

end Forests

abbrev Joined (built : List Token → Node → Prop) : List Token → List Node → Prop :=
  SeparatedBy (fun gap => ∀ t ∈ gap, t.IsMark) built

end CellBindings
