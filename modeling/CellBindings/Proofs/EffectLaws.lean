import CellBindings.Effect.Reading
import CellBindings.Proofs.TreeSpans

/-!
Laws for the effects of a tree. Each function that reads a construct puts together effects of its
parts and adds few of its own. So it is enough that a law allows what each construct of a tree adds:
then all effects of the tree obey it.
-/

namespace CellBindings

/-- The kinds of what is defined for other cells whatever frames there are. -/
def DefinitionKind.IsDeclared (kind : DefinitionKind) : Prop :=
  kind = .structName ∨ kind = .abstractTypeName ∨ kind = .primitiveTypeName ∨
    kind = .moduleName ∨ kind = .importedName

def Kind.opensFrame : Kind → Bool
  | .functionDefinition | .macroDefinition | .arrowFunction | .doClause | .whereExpression
  | .letStatement | .forStatement | .comprehension | .generator | .whileStatement
  | .tryStatement => true
  | _ => false

def Kind.bindsNames : Kind → Bool
  | .functionDefinition | .macroDefinition | .arrowFunction | .doClause | .whereExpression
  | .letStatement | .forStatement | .comprehension | .generator | .localStatement => true
  | _ => false

namespace Reading

def HeadsFunction (kind : Kind) (children : List Reading) : Prop :=
  kind = .assignment ∧ children.head?.any (·.isSignature) = true

def OpensFrame (kind : Kind) (children : List Reading) : Prop :=
  kind.opensFrame = true ∨ HeadsFunction kind children

instance (kind : Kind) (children : List Reading) : Decidable (OpensFrame kind children) :=
  inferInstanceAs (Decidable (_ ∨ _ ∧ _))

def BindsNames (kind : Kind) (children : List Reading) : Prop :=
  kind.bindsNames = true ∨ HeadsFunction kind children ∨
    kind = .tryStatement ∧ ∃ clause ∈ children, clause.kind = .catchClause ∧
      ∃ part ∈ clause.children, part.kind = .identifier

def definedName? (children : List Reading) : Option Reading :=
  ((children.find? (·.kind == .signature)).bind (·.children.head?)).bind (·.signature.name)

end Reading

/-- What holds of effects, the spans they name, and whether explicit binders are allowed. -/
structure Law where
  holds : Effect → Prop
  spans : Span → Prop
  binders : Prop

structure Law.Admits (law : Law) : Prop where
  use : ∀ span, law.spans span → law.holds (.use span)
  assign : ∀ kind span, kind ≠ .macroName → law.spans span → law.holds (.assign kind span)
  define : ∀ kind span, kind.IsDeclared → law.spans span → law.holds (.define kind span)
  update : ∀ operator target, law.spans operator → (∀ span ∈ target, law.spans span) →
    law.holds (.update operator target)
  bind : ∀ span, law.binders → law.spans span → law.holds (.bind span)

def AllEffects (law : Law) (effects : List Effect) : Prop := ∀ effect ∈ effects, law.holds effect

structure Law.Suits (law : Law) (kind : Kind) (children : List Reading) : Prop where
  frames : Reading.OpensFrame kind children → ∀ scope body, AllEffects law body →
    law.holds (.scoped scope body)
  binders : Reading.BindsNames kind children → law.binders
  globals : kind = .globalStatement → ∀ span, law.spans span → law.holds (.declareGlobal span)
  macros : kind = .macroDefinition → ∀ name ∈ Reading.definedName? children,
    law.spans name.span → law.holds (.assign .macroName name.span)

/-- The effects of a node obey the law wherever the node stands; as a parameter or a type variable
only if explicit binders are allowed. No construct assigns its targets as macros. -/
structure Roles.Obey (law : Law) (roles : Roles) : Prop where
  value : AllEffects law roles.value
  quoted : AllEffects law roles.quoted
  target : ∀ kind, kind ≠ .macroName → AllEffects law (roles.target kind)
  parameter : law.binders → AllEffects law roles.parameter
  typeVariable : law.binders → AllEffects law roles.typeVariable

inductive Reading.Obeys (law : Law) : Reading → Prop where
  | mk {kind span children roles} : law.spans span → law.Suits kind children →
      (∀ child ∈ children, Obeys law child) → roles.Obey law →
      Obeys law ⟨kind, span, children, roles⟩

section Lists

variable {α : Type} {law : Law} {effect : Effect} {effects more : List Effect}

theorem allEffects_nil : AllEffects law [] := by
  intro effect h
  cases h

theorem allEffects_singleton (h : law.holds effect) : AllEffects law [effect] := by
  intro other ho
  obtain rfl := List.mem_singleton.mp ho
  exact h

theorem AllEffects.append (h : AllEffects law effects) (k : AllEffects law more) :
    AllEffects law (effects ++ more) := by
  intro effect he
  rcases List.mem_append.mp he with he | he
  · exact h effect he
  · exact k effect he

theorem allEffects_flatMap {items : List α} {f : α → List Effect}
    (h : ∀ item ∈ items, AllEffects law (f item)) : AllEffects law (items.flatMap f) := by
  intro effect he
  obtain ⟨item, hi, he⟩ := List.mem_flatMap.mp he
  exact h item hi effect he

theorem allEffects_map {items : List α} {f : α → Effect} (h : ∀ item ∈ items, law.holds (f item)) :
    AllEffects law (items.map f) := by
  intro effect he
  obtain ⟨item, hi, rfl⟩ := List.mem_map.mp he
  exact h item hi

end Lists

namespace Reading

variable {law : Law} {r : Reading} {nodes children : List Reading}

namespace Obeys

theorem span (h : r.Obeys law) : law.spans r.span := by
  cases h with
  | mk hs _ _ _ => exact hs

theorem suits (h : r.Obeys law) : law.Suits r.kind r.children := by
  cases h with
  | mk _ suits _ _ => exact suits

theorem child (h : r.Obeys law) : ∀ c ∈ r.children, c.Obeys law := by
  cases h with
  | mk _ _ hc _ => exact hc

theorem roles (h : r.Obeys law) : r.roles.Obey law := by
  cases h with
  | mk _ _ _ hr => exact hr

end Obeys

abbrev AllObey (law : Law) (nodes : List Reading) : Prop := ∀ node ∈ nodes, node.Obeys law

theorem values_obey (h : AllObey law nodes) : AllEffects law (values nodes) :=
  allEffects_flatMap fun node hn => (h node hn).roles.value

theorem parameters_obey (h : AllObey law nodes) (hb : law.binders) :
    AllEffects law (parameters nodes) :=
  allEffects_flatMap fun node hn => (h node hn).roles.parameter hb

theorem allObey_take (h : AllObey law nodes) (n : Nat) : AllObey law (nodes.take n) :=
  fun node hn => h node (List.mem_of_mem_take hn)

theorem allObey_drop (h : AllObey law nodes) (n : Nat) : AllObey law (nodes.drop n) :=
  fun node hn => h node (List.mem_of_mem_drop hn)

theorem allObey_find (h : AllObey law nodes) (p : Reading → Bool) :
    AllObey law (nodes.find? p).toList :=
  fun node hn => h node (List.mem_of_find?_eq_some (Option.mem_toList.mp hn))

theorem allObey_head (h : AllObey law nodes) : AllObey law nodes.head?.toList :=
  fun node hn => h node (List.mem_of_mem_head? (Option.mem_toList.mp hn))

theorem firstValue_obey (h : AllObey law nodes) (kind : Kind) :
    AllEffects law (firstValue kind nodes) :=
  values_obey (allObey_find h _)

structure Signature.Each (P : Reading → Prop) (parts : Signature) : Prop where
  name : ∀ part ∈ parts.name.toList, P part
  functor : ∀ part ∈ parts.functor.toList, P part
  parameters : ∀ part ∈ parts.parameters.toList, P part
  typeVariables : ∀ part ∈ parts.typeVariables, P part
  returnTypes : ∀ part ∈ parts.returnTypes, P part

theorem ofCall_each {P : Reading → Prop} (hereditary : ∀ r, P r → ∀ c ∈ r.children, P c)
    (h : ∀ node ∈ nodes, P node) : (Signature.ofCall nodes).Each P := by
  unfold Signature.ofCall
  split
  · exact ⟨by simp, by simp, by simp, by simp, by simp⟩
  · next callee arguments =>
    have first : ∀ part ∈ arguments.head?.toList, P part := by
      intro part hp
      have member := List.mem_of_mem_head? (Option.mem_toList.mp hp)
      exact h part (List.mem_cons_of_mem _ member)
    have inside := hereditary callee (h callee (by simp))
    have each {named : Option Reading} {types : List Reading} (hn : ∀ part ∈ named.toList, P part)
        (ht : ∀ part ∈ types, P part) :
        (if named.any (·.kind == .parenthesizedExpression) then
          (⟨none, named, arguments.head?, types, []⟩ : Signature)
        else ⟨named, none, arguments.head?, types, []⟩).Each P := by
      split
      · exact ⟨by simp, hn, first, ht, by simp⟩
      · exact ⟨hn, by simp, first, ht, by simp⟩
    by_cases curly : callee.kind = .curlyExpression
    · simp only [if_pos curly]
      exact each (fun part hp => inside part (List.mem_of_mem_head? (Option.mem_toList.mp hp)))
        fun part hp => inside part (List.mem_of_mem_drop hp)
    · simp only [if_neg curly]
      exact each (by simpa using h callee (by simp)) (by simp)

/-- What is inherited by children holds of all parts of a signature. -/
theorem signature_each {P : Reading → Prop} (hereditary : ∀ r, P r → ∀ c ∈ r.children, P c)
    (h : P r) : r.signature.Each P := by
  induction r using signature.induct with
  | case1 span inner clauses roles ih =>
    obtain ⟨name, functor, parameters, binders, types⟩ := ih (hereditary _ h inner (by simp))
    refine ⟨name, functor, parameters, fun part hp => ?_, types⟩
    rcases List.mem_append.mp hp with hp | hp
    · exact hereditary _ h part (by simp [hp])
    · exact binders part hp
  | case2 span inner more roles ih =>
    obtain ⟨name, functor, parameters, binders, types⟩ := ih (hereditary _ h inner (by simp))
    refine ⟨name, functor, parameters, binders, fun part hp => ?_⟩
    rcases List.mem_append.mp hp with hp | hp
    · exact hereditary _ h part (by simp [hp])
    · exact types part hp
  | case3 span children roles => exact ofCall_each hereditary (hereditary _ h)
  | case4 span children roles =>
    exact ⟨by simpa [signature] using h, by simp [signature], by simp [signature],
      by simp [signature], by simp [signature]⟩
  | case5 node noWhere noTypes noCall noName =>
    have bare : node.signature = ⟨none, none, some node, [], []⟩ := by
      rw [signature]
      · exact noWhere
      · exact noTypes
      · exact noCall
      · exact noName
    rw [bare]
    exact ⟨by simp, by simp, by simpa using h, by simp, by simp⟩

theorem Obeys.signature (h : r.Obeys law) : r.signature.Each (Obeys law) :=
  signature_each (fun _ => Obeys.child) h

theorem calleeEffects_obey (admits : law.Admits) (scope : ScopeKind) (h : r.Obeys law)
    (named : scope = .macroBody → law.spans r.span → law.holds (.assign .macroName r.span)) :
    AllEffects law (calleeEffects scope r) := by
  have assigns : AllEffects law
      [.assign (if scope = .macroBody then .macroName else .functionName) r.span] := by
    apply allEffects_singleton
    by_cases hs : scope = .macroBody
    · rw [if_pos hs]
      exact named hs h.span
    · rw [if_neg hs]
      exact admits.assign _ _ (by decide) h.span
  unfold calleeEffects
  split
  · exact assigns
  · exact assigns
  · exact h.roles.value
  · exact allEffects_nil

/-- A callable has a frame of its own and explicit binders in it. -/
theorem callable_obey (admits : law.Admits) {scope : ScopeKind} {parts : Signature}
    {body : List Effect} (h : parts.Each (Obeys law))
    (named : scope = .macroBody → ∀ part ∈ parts.name, law.spans part.span →
      law.holds (.assign .macroName part.span))
    (frames : ∀ body, AllEffects law body → law.holds (.scoped scope body)) (hb : law.binders)
    (inside : AllEffects law body) : AllEffects law (callable scope parts body) := by
  have outside : AllEffects law (parts.name.toList.flatMap (calleeEffects scope)) := by
    apply allEffects_flatMap
    intro callee hc
    exact calleeEffects_obey admits scope (h.name callee hc) fun hs =>
      named hs callee (Option.mem_toList.mp hc)
  have binders := allEffects_flatMap fun part hp => (h.typeVariables part hp).roles.typeVariable hb
  have functor := parameters_obey h.functor hb
  have parameters := parameters_obey h.parameters hb
  have types := values_obey h.returnTypes
  have all := (((binders.append functor).append parameters).append types).append inside
  exact outside.append (allEffects_singleton (frames _ all))

theorem assignment_obey (admits : law.Admits) {kind : DefinitionKind} (hk : kind ≠ .macroName)
    (h : AllObey law children) (suits : law.Suits .assignment children) :
    AllEffects law (assignment kind children) := by
  unfold assignment
  split
  · next left operator right rest =>
    have value := (h right (by simp)).roles.value
    split
    · next signature =>
      have heads : HeadsFunction .assignment (left :: operator :: right :: rest) :=
        ⟨rfl, signature⟩
      have hb := suits.binders (.inr (.inl heads))
      exact callable_obey admits (h left (by simp)).signature (fun other => by cases other)
        (suits.frames (.inr heads) .function) hb value
    · exact value.append ((h left (by simp)).roles.target kind hk)
  · exact values_obey h

theorem compoundAssignment_obey (admits : law.Admits) (h : AllObey law children) :
    AllEffects law (compoundAssignment children) := by
  unfold compoundAssignment
  split
  · next left operator right _ =>
    have both := (h right (by simp)).roles.value.append (h left (by simp)).roles.value
    apply both.append
    apply allEffects_singleton
    apply admits.update _ _ (h operator (by simp)).span
    intro span hs
    split at hs
    · cases hs
      exact (h left (by simp)).span
    · cases hs
  · exact values_obey h

theorem keywordArgument_obey (h : AllObey law children) :
    AllEffects law (keywordArgument children) := by
  unfold keywordArgument
  split
  · exact allEffects_nil
  · next label value =>
    have behind := values_obey fun node (hn : node ∈ value) => h node (by simp [hn])
    refine AllEffects.append ?_ behind
    split
    · exact allEffects_nil
    · exact (h label (by simp)).roles.value

theorem fieldExpression_obey (h : AllObey law children) :
    AllEffects law (fieldExpression children) := by
  unfold fieldExpression
  split
  · exact allEffects_nil
  · next base fields =>
    apply (h base (by simp)).roles.value.append
    apply values_obey
    intro node hn
    have mem := (Option.mem_filter_iff.mp (Option.mem_toList.mp hn)).1
    exact h node (List.mem_cons_of_mem _ (List.mem_of_mem_head? mem))

theorem definition_obey (admits : law.Admits) {scope : ScopeKind} (h : AllObey law children)
    (named : scope = .macroBody → ∀ name ∈ definedName? children, law.spans name.span →
      law.holds (.assign .macroName name.span))
    (frames : ∀ body, AllEffects law body → law.holds (.scoped scope body)) (hb : law.binders) :
    AllEffects law (definition scope children) := by
  have body := firstValue_obey h .block
  unfold definition
  dsimp only
  split
  · next head found =>
    obtain ⟨signature, hs, hh⟩ := Option.bind_eq_some_iff.mp found
    have obeys := (h signature (List.mem_of_find?_eq_some hs)).child head (List.mem_of_mem_head? hh)
    refine callable_obey admits obeys.signature ?_ frames hb body
    intro hm
    simpa [definedName?, found] using named hm
  · exact allEffects_singleton (frames _ body)

section Frames

/-! Constructs with a frame. What is in the frame obeys the law, and so does the frame. -/

theorem arrowFunction_obey (h : AllObey law children) (suits : law.Suits .arrowFunction children) :
    AllEffects law (arrowFunction children) := by
  have hb := suits.binders (.inl rfl)
  have inside := (parameters_obey (allObey_take h 1) hb).append
    (values_obey (allObey_take (allObey_drop h 1) 1))
  exact allEffects_singleton (suits.frames (.inl rfl) _ _ inside)

theorem doClause_obey (h : AllObey law children) (suits : law.Suits .doClause children) :
    AllEffects law (doClause children) := by
  have hb := suits.binders (.inl rfl)
  have names := parameters_obey (allObey_find h (·.kind == .parameterList)) hb
  have inside := names.append (firstValue_obey h .block)
  exact allEffects_singleton (suits.frames (.inl rfl) _ _ inside)

theorem whereExpression_obey (h : AllObey law children)
    (suits : law.Suits .whereExpression children) : AllEffects law (whereExpression children) := by
  have hb := suits.binders (.inl rfl)
  have binders := allEffects_flatMap fun part hp => (allObey_drop h 1 part hp).roles.typeVariable hb
  have inside := binders.append (values_obey (allObey_take h 1))
  exact allEffects_singleton (suits.frames (.inl rfl) _ _ inside)

theorem letStatement_obey (h : AllObey law children) (suits : law.Suits .letStatement children) :
    AllEffects law (letStatement children) := by
  have hb := suits.binders (.inl rfl)
  have bindings : AllObey law
      ((children.find? (·.kind == .letBindings)).toList.flatMap (·.children)) := by
    intro binding hm
    obtain ⟨list, hl, hm⟩ := List.mem_flatMap.mp hm
    exact (allObey_find h _ list hl).child binding hm
  have inside := (parameters_obey bindings hb).append (firstValue_obey h .block)
  exact allEffects_singleton (suits.frames (.inl rfl) _ _ inside)

theorem iterable_obey (h : r.Obeys law) : AllEffects law (iterable r) :=
  values_obey (allObey_take (allObey_drop h.child 1) 1)

theorem loopNames_obey (h : r.Obeys law) (hb : law.binders) : AllEffects law (loopNames r) :=
  parameters_obey (allObey_take h.child 1) hb

theorem laterBindings_obey (h : AllObey law nodes) (hb : law.binders) :
    AllEffects law (laterBindings nodes) := by
  apply allEffects_flatMap
  intro binding hm
  exact (iterable_obey (h binding hm)).append (loopNames_obey (h binding hm) hb)

theorem leadingBindings_obey (h : AllObey law nodes) (hb : law.binders) :
    AllEffects law (leadingBindings nodes) := by
  cases nodes with
  | nil => exact allEffects_nil
  | cons first rest =>
    apply (loopNames_obey (h first (by simp)) hb).append
    exact laterBindings_obey (fun node hn => h node (by simp [hn])) hb

theorem forStatement_obey (h : AllObey law children) (suits : law.Suits .forStatement children) :
    AllEffects law (forStatement children) := by
  have hb := suits.binders (.inl rfl)
  have bindings : AllObey law (children.filter (·.kind == .forBinding)) :=
    fun binding hm => h binding (List.mem_filter.mp hm).1
  have first := allEffects_flatMap fun binding hm => iterable_obey (allObey_head bindings binding hm)
  have inside := (leadingBindings_obey bindings hb).append (firstValue_obey h .block)
  exact first.append (allEffects_singleton (suits.frames (.inl rfl) _ _ inside))

theorem clause_obey (h : r.Obeys law) (hb : law.binders) : AllEffects law (clause r) := by
  unfold clause
  split
  · exact laterBindings_obey h.child hb
  · exact h.roles.value

theorem comprehension_obey (h : AllObey law children) (hb : law.binders)
    (frames : ∀ body, AllEffects law body → law.holds (.scoped .comprehension body)) :
    AllEffects law (comprehension children) := by
  have body := values_obey (allObey_take h 1)
  have clauses := allObey_drop h 1
  unfold comprehension
  dsimp only
  split
  · exact allEffects_singleton (frames _ body)
  · next first rest parts =>
    rw [parts] at clauses
    have behind := allEffects_flatMap fun part hp =>
      clause_obey (clauses part (List.mem_cons_of_mem _ hp)) hb
    split
    · have bindings := (clauses first List.mem_cons_self).child
      have outside := allEffects_flatMap fun binding hm =>
        iterable_obey (allObey_head bindings binding hm)
      have inside := ((leadingBindings_obey bindings hb).append behind).append body
      exact outside.append (allEffects_singleton (frames _ inside))
    · have all := allEffects_flatMap fun part hp => clause_obey (clauses part hp) hb
      exact allEffects_singleton (frames _ (all.append body))

theorem whileStatement_obey (h : AllObey law children)
    (suits : law.Suits .whileStatement children) : AllEffects law (whileStatement children) := by
  have inside := suits.frames (.inl rfl) .whileLoop _ (firstValue_obey h .block)
  exact (values_obey (allObey_take h 1)).append (allEffects_singleton inside)

theorem tryPart_obey (admits : law.Admits) (h : AllObey law children)
    (suits : law.Suits .tryStatement children) (hr : r ∈ children) : law.holds (tryPart r) := by
  have parts := (h r hr).child
  unfold tryPart
  split
  · next clause =>
    apply suits.frames (.inl rfl)
    apply allEffects_flatMap
    intro part hp
    split
    · next name =>
      have hb := suits.binders (.inr (.inr ⟨rfl, r, hr, clause, part, hp, name⟩))
      exact allEffects_singleton (admits.bind _ hb (parts part hp).span)
    · exact (parts part hp).roles.value
  · exact suits.frames (.inl rfl) _ _ (h r hr).roles.value

end Frames

section Definitions

theorem typeName?_obey {name : Reading} (h : r.Obeys law) (hn : r.typeName? = some name) :
    name.Obeys law := by
  induction r using typeName?.induct with
  | case1 span children roles =>
    cases hn
    exact h
  | case2 span inner tail roles ih => exact ih (h.child inner (by simp)) hn
  | case3 span inner tail roles ih => exact ih (h.child inner (by simp)) hn
  | case4 node noName noCurly noBinary =>
    rw [typeName?] at hn
    · cases hn
    · exact noName
    · exact noCurly
    · exact noBinary

theorem typeDefinition_obey (admits : law.Admits) {kind : DefinitionKind} (hk : kind.IsDeclared)
    (h : AllObey law children) : AllEffects law (typeDefinition kind children) := by
  apply allEffects_map
  intro name hn
  obtain ⟨head, hh, hn⟩ := Option.bind_eq_some_iff.mp (Option.mem_toList.mp hn)
  obtain ⟨list, hl, hh⟩ := Option.bind_eq_some_iff.mp hh
  have member := h list (List.mem_of_find?_eq_some hl)
  have obeys := typeName?_obey (member.child head (List.mem_of_mem_head? hh)) hn
  exact admits.define _ _ hk obeys.span

theorem moduleDefinition_obey (admits : law.Admits) (h : AllObey law children) :
    AllEffects law (moduleDefinition children) := by
  apply allEffects_map
  intro name hn
  exact admits.define _ _ (by simp [DefinitionKind.IsDeclared]) (allObey_find h _ name hn).span

theorem importItem_obey (admits : law.Admits) (h : r.Obeys law) :
    AllEffects law (importItem r) := by
  apply allEffects_map
  intro name hn
  apply admits.define _ _ (by simp [DefinitionKind.IsDeclared])
  have found := Option.mem_toList.mp hn
  split at found
  · exact (h.child name (List.mem_of_getLast? found)).span
  · exact (h.child name (List.mem_of_getElem? found)).span
  · cases found

theorem importStatement_obey (admits : law.Admits) (h : AllObey law children) :
    AllEffects law (importStatement children) := by
  apply allEffects_flatMap
  intro child hc
  split
  · apply allEffects_flatMap
    intro item hi
    exact importItem_obey admits (allObey_drop (h child hc).child 1 item hi)
  · exact importItem_obey admits (h child hc)

theorem constStatement_obey (admits : law.Admits) (h : AllObey law children) :
    AllEffects law (constStatement children) := by
  apply allEffects_flatMap
  intro child hc
  split
  · next kind =>
    have suits := (h child hc).suits
    rw [kind] at suits
    exact assignment_obey admits (by decide) (h child hc).child suits
  · exact (h child hc).roles.value

theorem allGlobalNames_eq (nodes : List Reading) :
    allGlobalNames nodes = nodes.flatMap globalNames := by
  induction nodes with
  | nil => rw [allGlobalNames, List.flatMap_nil]
  | cons node nodes ih => rw [allGlobalNames, ih, List.flatMap_cons]

theorem globalNames_obey (globals : ∀ span, law.spans span → law.holds (.declareGlobal span))
    (h : r.Obeys law) : AllEffects law (globalNames r) := by
  induction h with
  | @mk kind span children roles hs _ _ _ ih =>
    unfold globalNames
    split
    · next same =>
      cases same
      exact allEffects_singleton (globals _ hs)
    · next same =>
      cases same
      rw [allGlobalNames_eq]
      exact allEffects_flatMap ih
    · next same =>
      cases same
      rw [allGlobalNames_eq]
      exact allEffects_flatMap ih
    · next same =>
      cases same
      exact ih _ List.mem_cons_self
    · next same =>
      cases same
      exact ih _ List.mem_cons_self
    · next same =>
      cases same
      exact ih _ List.mem_cons_self
    · next same =>
      cases same
      exact ih _ List.mem_cons_self
    · exact allEffects_nil

theorem globalStatement_obey (h : AllObey law children)
    (suits : law.Suits .globalStatement children) : AllEffects law (globalStatement children) := by
  apply allEffects_flatMap
  intro child hc
  apply (globalNames_obey (suits.globals rfl) (h child hc)).append
  split
  · exact (h child hc).roles.value
  · exact allEffects_nil

end Definitions

theorem valueEffects_obey (admits : law.Admits) {kind : Kind} {span : Span} (hs : law.spans span)
    (h : AllObey law children) (suits : law.Suits kind children) :
    AllEffects law (valueEffects kind span children) := by
  have quotations := allEffects_flatMap fun child hc => (h child hc).roles.quoted
  unfold valueEffects
  split
  -- literals, and statements that only name a place, have no effects
  all_goals try exact allEffects_nil
  · exact allEffects_singleton (admits.use _ hs)
  · exact allEffects_singleton (admits.use _ hs)
  · exact quotations
  · exact quotations
  · exact assignment_obey admits (by decide) h suits
  · exact compoundAssignment_obey admits h
  · exact keywordArgument_obey h
  · exact fieldExpression_obey h
  · exact definition_obey admits h (fun other => by cases other) (suits.frames (.inl rfl) _)
      (suits.binders (.inl rfl))
  · exact definition_obey admits h (fun _ => suits.macros rfl) (suits.frames (.inl rfl) _)
      (suits.binders (.inl rfl))
  · exact arrowFunction_obey h suits
  · exact doClause_obey h suits
  · exact whereExpression_obey h suits
  · exact letStatement_obey h suits
  · exact forStatement_obey h suits
  · exact comprehension_obey h (suits.binders (.inl rfl)) (suits.frames (.inl rfl) _)
  · exact comprehension_obey h (suits.binders (.inl rfl)) (suits.frames (.inl rfl) _)
  · exact whileStatement_obey h suits
  · exact allEffects_map fun child hc => tryPart_obey admits h suits hc
  · exact typeDefinition_obey admits (by simp [DefinitionKind.IsDeclared]) h
  · exact typeDefinition_obey admits (by simp [DefinitionKind.IsDeclared]) h
  · exact typeDefinition_obey admits (by simp [DefinitionKind.IsDeclared]) h
  · exact moduleDefinition_obey admits h
  · exact importStatement_obey admits h
  · exact importStatement_obey admits h
  · exact constStatement_obey admits h
  · exact globalStatement_obey h suits
  · exact parameters_obey h (suits.binders (.inl rfl))
  · exact values_obey h

theorem targetEffects_obey (admits : law.Admits) {kind : Kind} {span : Span} {value : List Effect}
    (hs : law.spans span) (h : AllObey law children) (hv : AllEffects law value)
    {assigned : DefinitionKind} (ha : assigned ≠ .macroName) :
    AllEffects law (targetEffects kind span children value assigned) := by
  have targets := allEffects_flatMap fun child hc => (h child hc).roles.target assigned ha
  have first := allEffects_flatMap fun child hc =>
    (allObey_take h 1 child hc).roles.target assigned ha
  unfold targetEffects
  split
  · exact allEffects_singleton (admits.assign _ _ ha hs)
  · exact first.append (values_obey (allObey_drop h 1))
  · exact targets
  · exact targets
  · exact targets
  · exact first
  · exact first
  · exact hv

theorem parameterEffects_obey (admits : law.Admits) {kind : Kind} {span : Span}
    {value : List Effect} (hs : law.spans span) (h : AllObey law children)
    (hv : AllEffects law value) (hb : law.binders) :
    AllEffects law (parameterEffects kind span children value) := by
  have first := parameters_obey (allObey_take h 1) hb
  unfold parameterEffects
  split
  · exact allEffects_singleton (admits.bind _ hb hs)
  · exact first.append (values_obey (allObey_drop h 1))
  · exact (values_obey (allObey_drop h 1)).append first
  · exact (values_obey (allObey_drop h 2)).append first
  · exact parameters_obey h hb
  · exact parameters_obey h hb
  · exact parameters_obey h hb
  · exact parameters_obey h hb
  · exact parameters_obey h hb
  · exact first
  · exact hv

theorem typeVariableEffects_obey (admits : law.Admits) {kind : Kind} {span : Span}
    {value : List Effect} (hs : law.spans span) (h : AllObey law children)
    (hv : AllEffects law value) (hb : law.binders) :
    AllEffects law (typeVariableEffects kind span children value) := by
  have first := allEffects_flatMap fun child hc =>
    (allObey_take h 1 child hc).roles.typeVariable hb
  unfold typeVariableEffects
  split
  · exact allEffects_singleton (admits.bind _ hb hs)
  · exact allEffects_flatMap fun child hc => (h child hc).roles.typeVariable hb
  · exact first.append (values_obey (allObey_drop h 2))
  · exact hv

theorem quotedEffects_obey {kind : Kind} (h : AllObey law children) :
    AllEffects law (quotedEffects kind children) := by
  unfold quotedEffects
  split
  · exact values_obey h
  · exact allEffects_flatMap fun child hc => (h child hc).roles.quoted

/-- A node whose children obey the law, and whose own effects it allows, obeys it too. -/
theorem build_obeys (admits : law.Admits) {kind : Kind} {span : Span} (hs : law.spans span)
    (h : AllObey law children) (suits : law.Suits kind children) :
    (build kind span children).Obeys law := by
  have value := valueEffects_obey admits hs h suits
  apply Obeys.mk hs suits h
  constructor
  · exact value
  · exact quotedEffects_obey h
  · intro assigned ha
    exact targetEffects_obey admits hs h value ha
  · exact parameterEffects_obey admits hs h value
  · exact typeVariableEffects_obey admits hs h value

end Reading

theorem readings_eq (nodes : List Node) : Node.readings nodes = nodes.map Node.reading := by
  induction nodes with
  | nil => rw [Node.readings, List.map_nil]
  | cons node nodes ih => rw [Node.readings, ih, List.map_cons]

/-- A tree obeys a law that allows what its nodes add. -/
theorem reading_obeys {law : Law} (admits : law.Admits) (node : Node)
    (hs : ∀ n ∈ node.preorder, law.spans n.span)
    (suits : ∀ n ∈ node.preorder, law.Suits n.kind (Node.readings n.children)) :
    node.reading.Obeys law := by
  induction node using Node.induct with
  | node kind span children ih =>
    have root := (@Node.mem_preorder ⟨kind, span, children⟩ ⟨kind, span, children⟩).mpr (.inl rfl)
    rw [Node.reading]
    refine Reading.build_obeys admits (hs _ root) ?_ (suits _ root)
    intro r hr
    rw [readings_eq] at hr
    obtain ⟨child, hc, rfl⟩ := List.mem_map.mp hr
    have below : ∀ n ∈ child.preorder, n ∈ Node.preorder ⟨kind, span, children⟩ := by
      intro n hn
      exact Node.mem_preorder.mpr (.inr ⟨child, hc, hn⟩)
    exact ih child hc (fun n hn => hs n (below n hn)) fun n hn => suits n (below n hn)

theorem effects_obey {law : Law} (admits : law.Admits) (node : Node)
    (hs : ∀ n ∈ node.preorder, law.spans n.span)
    (suits : ∀ n ∈ node.preorder, law.Suits n.kind (Node.readings n.children)) (quoted : Bool) :
    AllEffects law (node.effects quoted) := by
  have obeys := (reading_obeys admits node hs suits).roles
  unfold Node.effects
  split
  · exact obeys.quoted
  · exact obeys.value

end CellBindings
