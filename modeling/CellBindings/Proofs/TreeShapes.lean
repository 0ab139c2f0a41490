import CellBindings.Proofs.ChartAnswers
import CellBindings.Proofs.SpelledArguments

/-!
The shapes of trees. The grammar gives the nodes of most kinds a fixed number of children, some of
them of a fixed kind. A tree is formed if every node in it has the shape of its kind, and all that
the rules find is formed.
-/

namespace CellBindings

open CellBindings.Parser Grammar

namespace Kind

def isImportable : Kind → Bool
  | .identifier | .macroIdentifier | .operator => true
  | _ => false

def Shapes (kind : Kind) (children : List Node) : Prop :=
  match kind with
  | .identifier | .operator | .integerLiteral | .floatLiteral | .charLiteral | .booleanLiteral
  | .symbol | .colon | .indexKeyword | .macroIdentifier | .error | .breakStatement
  | .continueStatement => children = []
  | .assignment | .compoundAssignment | .binaryExpression =>
    ∃ left operator right, children = [left, operator, right] ∧ operator.kind = .operator
  | .typedExpression | .arrowFunction | .forBinding => ∃ first second, children = [first, second]
  | .whereExpression => ∃ inner clauses, children = inner :: clauses
  | .signature | .typeHead | .splatExpression => ∃ part, children = [part]
  | .fieldExpression => ∃ base field, children = [base, field] ∧
      (field.kind.isLeaf = true ∨ field.kind = .interpolation)
  | .functionDefinition | .macroDefinition => ∃ head body, children = [head, body] ∧
      head.kind = .signature ∧ body.kind = .block
  | .doClause => ∃ parameters body, children = [parameters, body] ∧
      parameters.kind = .parameterList ∧ body.kind = .block
  | .letStatement => ∃ bindings body, children = [bindings, body] ∧
      bindings.kind = .letBindings ∧ body.kind = .block
  | .whileStatement => ∃ condition body, children = [condition, body] ∧
      condition.kind ≠ .block ∧ body.kind = .block
  | .forStatement => ∃ bindings body, children = bindings ++ [body] ∧
      (∀ binding ∈ bindings, binding.kind = .forBinding) ∧ body.kind = .block
  | .forClause => ∀ binding ∈ children, binding.kind = .forBinding
  | .comprehension | .generator => ∃ body first rest, children = body :: first :: rest ∧
      first.kind = .forClause ∧ ∀ clause ∈ rest, clause.kind = .forClause ∨ clause.kind = .ifClause
  | .structDefinition => ∃ head body, children = [head, body] ∧
      head.kind = .typeHead ∧ body.kind = .block
  | .abstractDefinition | .primitiveDefinition => ∃ head rest, children = head :: rest ∧
      head.kind = .typeHead
  | .moduleDefinition => ∃ name body, children = [name, body] ∧
      name.kind = .identifier ∧ body.kind = .block
  | .importPath => ∀ name ∈ children, name.kind.isImportable = true
  | .importAlias => ∃ path name, children = [path, name] ∧ name.kind.isImportable = true
  | _ => True

end Kind

inductive Node.Formed : Node → Prop where
  | mk {kind span children} : kind.Shapes children → (∀ child ∈ children, Formed child) →
      Formed ⟨kind, span, children⟩

namespace Node.Formed

variable {kind : Kind} {span : Span} {node a b c : Node} {nodes : List Node}

theorem shape (h : node.Formed) : node.kind.Shapes node.children := by
  cases h with
  | mk shape _ => exact shape

theorem child (h : node.Formed) : ∀ child ∈ node.children, child.Formed := by
  cases h with
  | mk _ children => exact children

/-- Only the span of a node is its own. -/
theorem respan (h : node.Formed) (hk : node.kind = kind) : Formed ⟨kind, span, node.children⟩ := by
  subst hk
  exact .mk h.shape h.child

theorem childless (shape : kind.Shapes []) : Formed ⟨kind, span, []⟩ := by
  refine .mk shape ?_
  intro child hc
  cases hc

theorem one (shape : kind.Shapes [a]) (ha : a.Formed) : Formed ⟨kind, span, [a]⟩ := by
  refine .mk shape ?_
  intro child hc
  obtain rfl := List.mem_singleton.mp hc
  exact ha

theorem cons (shape : kind.Shapes (a :: nodes)) (ha : a.Formed) (h : ∀ node ∈ nodes, node.Formed) :
    Formed ⟨kind, span, a :: nodes⟩ := by
  refine .mk shape ?_
  intro child hc
  rcases List.mem_cons.mp hc with rfl | hc
  · exact ha
  · exact h child hc

theorem two (shape : kind.Shapes [a, b]) (ha : a.Formed) (hb : b.Formed) :
    Formed ⟨kind, span, [a, b]⟩ :=
  cons shape ha (by simpa using hb)

theorem three (shape : kind.Shapes [a, b, c]) (ha : a.Formed) (hb : b.Formed) (hc : c.Formed) :
    Formed ⟨kind, span, [a, b, c]⟩ :=
  cons shape ha (by simpa using ⟨hb, hc⟩)

end Node.Formed

/-- A tree that a rule may find: formed, and no bare block. -/
structure Node.Whole (node : Node) : Prop where
  formed : node.Formed
  kind : node.kind ≠ .block

def Gives {α : Type} (p : Parser α) (post : α → Prop) : Prop :=
  Reads (fun _ node => node.Whole) p fun _ => post

namespace Gives

variable {α β : Type} {p q : Parser α} {P Q : α → Prop} {R : β → Prop}

theorem mono (hp : Gives p P) (h : ∀ a, P a → Q a) : Gives p Q :=
  Reads.mono hp fun _ a _ => h a

theorem pure {a : α} (h : P a) : Gives (Pure.pure a : Parser α) P := Reads.pure h

theorem bind {f : α → Parser β} (hp : Gives p P) (hf : ∀ a, P a → Gives (f a) R) :
    Gives (p >>= f) R :=
  Reads.bind hp fun _ a ha => hf a ha

/-- A part whose value says nothing more about the tree. -/
theorem skip {f : α → Parser β} (hp : Gives p P) (hf : ∀ a, Gives (f a) R) : Gives (p >>= f) R :=
  bind hp fun a _ => hf a

theorem map {f : α → β} (hp : Gives p P) (h : ∀ a, P a → R (f a)) : Gives (f <$> p) R :=
  Reads.map hp fun _ a ha => h a ha

theorem orElse (hp : Gives p P) (hq : Gives q P) : Gives (p <|> q) P := Reads.orElse hp hq

theorem token (accepts : Token → Bool) : Gives (Parser.token accepts) fun _ => True :=
  (Reads.token accepts).mono fun _ _ _ _ => trivial

theorem ahead (p : Parser α) : Gives (Parser.ahead p) fun _ => True :=
  (Reads.ahead p).mono fun _ _ _ _ => trivial

theorem rule (answer : Row → Answer) [kept : IsKept answer] :
    Gives (Parser.rule answer) Node.Whole :=
  Reads.rule kept.mem

theorem option (hp : Gives p P) : Gives (Parser.option p) fun o => ∀ a ∈ o, P a := by
  refine orElse (map hp ?_) (pure ?_)
  · intro a ha b hb
    cases hb
    exact ha
  · intro a ha
    cases ha

theorem many (hp : Gives p P) : Gives (Parser.many p) fun items => ∀ a ∈ items, P a := by
  refine (Reads.many hp).mono ?_
  intro ts items ordered pieces
  clear ordered
  induction pieces with
  | nil =>
    intro a ha
    cases ha
  | cons piece _ ih =>
    intro a ha
    rcases List.mem_cons.mp ha with rfl | ha
    · exact piece
    · exact ih a ha

theorem many1 (hp : Gives p P) : Gives (Parser.many1 p) fun items => ∀ a ∈ items, P a := by
  refine bind hp fun first hf => bind (many hp) fun rest hr => pure ?_
  intro a ha
  rcases List.mem_cons.mp ha with rfl | ha
  · exact hf
  · exact hr a ha

theorem separated1 {separator : Parser β} (hp : Gives p P) (hs : Gives separator R) :
    Gives (Parser.separated1 p separator) fun items => ∀ a ∈ items, P a := by
  refine bind hp fun first hf => bind (many (skip hs fun _ => hp)) fun rest hr => pure ?_
  intro a ha
  rcases List.mem_cons.mp ha with rfl | ha
  · exact hf
  · exact hr a ha

theorem separated {separator : Parser β} (hp : Gives p P) (hs : Gives separator R) :
    Gives (Parser.separated p separator) fun items => ∀ a ∈ items, P a := by
  refine orElse (separated1 hp hs) (pure ?_)
  intro a ha
  cases ha

end Gives

structure Node.FormedAs (kind : Kind) (node : Node) : Prop where
  formed : node.Formed
  kind : node.kind = kind

theorem Node.FormedAs.whole {kind : Kind} {node : Node} (h : node.FormedAs kind)
    (hk : kind ≠ .block) : node.Whole :=
  ⟨h.formed, by rw [h.kind]; exact hk⟩

section Arguments

theorem gives_leaf {kind : Kind} {p : Parser Token} {P : Token → Prop} (hp : Gives p P)
    (shape : kind.Shapes []) : Gives (leaf kind <$> p) (Node.FormedAs kind) :=
  hp.map fun _ _ => ⟨.childless shape, rfl⟩

theorem gives_wholeLeaf {kind : Kind} {p : Parser Token} {P : Token → Prop} (hp : Gives p P)
    (shape : kind.Shapes []) (hk : kind ≠ .block) : Gives (leaf kind <$> p) Node.Whole :=
  (gives_leaf hp shape).mono fun _ h => h.whole hk

theorem gives_unread (accepts : Token → Bool) :
    Gives (do let ts ← many1 (Parser.token accepts); return unread ts) Node.Whole :=
  (Gives.token accepts).many1.skip fun ts => .pure ⟨.childless rfl, by simp [unread, Node.leaf]⟩

theorem gives_blockItem : Gives blockItem Node.Whole := by
  refine .orElse ?_ (gives_unread _)
  exact (Gives.rule Row.statement).bind fun node hn => (Gives.ahead _).skip fun _ => .pure hn

theorem gives_block : Gives block (Node.FormedAs .block) := by
  refine (Gives.token _).many.skip fun _ => ?_
  refine (gives_blockItem.separated (Gives.token isSeparator).many1).bind fun items hi => ?_
  exact (Gives.token _).many.skip fun _ => .pure ⟨.mk trivial fun item h => (hi item h).formed, rfl⟩

/-- A block keeps its shape wherever it is put. -/
theorem Node.FormedAs.placeBlock {node : Node} (h : node.FormedAs .block) (offset : Nat) :
    (Grammar.placeBlock node offset).FormedAs .block := by
  unfold Grammar.placeBlock
  split
  · exact ⟨h.formed.respan rfl, h.kind⟩
  · exact h

theorem formedAs_placed {kind : Kind} {offset : Nat} {nodes : List Node} (shape : ∀ nodes, kind.Shapes nodes)
    (h : ∀ node ∈ nodes, node.Whole) : (Grammar.placed kind offset nodes).FormedAs kind := by
  unfold Grammar.placed
  split
  · exact ⟨.childless (shape _), rfl⟩
  · exact ⟨.mk (shape _) fun node hn => (h node hn).formed, rfl⟩

theorem gives_comma : Gives comma fun _ => True := Gives.token (·.isPunctuation ',')

theorem gives_name : Gives name (Node.FormedAs .identifier) := gives_leaf (Gives.token _) rfl

theorem gives_forBinding : Gives forBinding (Node.FormedAs .forBinding) := by
  refine (Gives.rule Row.typed).bind fun target ht => ?_
  refine (Gives.orElse (Gives.token _) (.orElse (Gives.token _) (Gives.token _))).skip fun _ => ?_
  refine (Gives.rule Row.ternary).bind fun iterable hi => .pure ?_
  exact ⟨.two ⟨_, _, rfl⟩ ht.formed hi.formed, rfl⟩

theorem gives_forBindings : Gives forBindings fun nodes => ∀ node ∈ nodes, node.FormedAs .forBinding :=
  gives_forBinding.separated1 gives_comma

theorem gives_forClause : Gives forClause (Node.FormedAs .forClause) := by
  refine (Gives.token _).skip fun t => gives_forBindings.bind fun bindings hb => .pure ?_
  exact ⟨.mk (fun binding h => (hb binding h).kind) fun binding h => (hb binding h).formed, rfl⟩

theorem gives_ifClause : Gives ifClause (Node.FormedAs .ifClause) :=
  (Gives.token _).skip fun _ => (Gives.rule Row.arrow).bind fun _ hc => .pure ⟨.one trivial hc.formed, rfl⟩

def Node.IsClause (node : Node) : Prop :=
  node.Formed ∧ (node.kind = .forClause ∨ node.kind = .ifClause)

theorem gives_comprehension {kind : Kind} (hk : kind = .comprehension ∨ kind = .generator) :
    Gives (comprehension kind) (Node.FormedAs kind) := by
  refine (Gives.rule Row.arrow).bind fun body hb => gives_forClause.bind fun first hf => ?_
  have clause : Gives (forClause <|> ifClause) Node.IsClause :=
    .orElse (gives_forClause.mono fun _ h => ⟨h.formed, .inl h.kind⟩)
      (gives_ifClause.mono fun _ h => ⟨h.formed, .inr h.kind⟩)
  refine clause.many.bind fun rest hr => .pure ⟨?_, rfl⟩
  have shape : kind.Shapes (body :: first :: rest) := by
    rcases hk with rfl | rfl
    · exact ⟨_, _, _, rfl, hf.kind, fun node hn => (hr node hn).2⟩
    · exact ⟨_, _, _, rfl, hf.kind, fun node hn => (hr node hn).2⟩
  refine .cons shape hb.formed ?_
  intro node hn
  rcases List.mem_cons.mp hn with rfl | hn
  · exact hf.formed
  · exact (hr node hn).1

theorem gives_callItem : Gives callItem Node.Whole := by
  refine .orElse ?_ (Gives.rule Row.arrow)
  refine (Gives.rule Row.typed).bind fun label hl => (Gives.token _).skip fun _ => ?_
  refine (Gives.rule Row.arrow).bind fun value hv => .pure ?_
  exact ⟨.two trivial hl.formed hv.formed, by simp [Node.wrap]⟩

theorem gives_commaList {item : Parser Node} (h : Gives item Node.Whole) :
    Gives (commaList item) fun nodes => ∀ node ∈ nodes, node.Whole :=
  (h.separated gives_comma).bind fun _ hi => gives_comma.option.skip fun _ => .pure hi

theorem whole_all {kind : Kind} {span : Span} {nodes : List Node} (shape : kind.Shapes nodes)
    (hk : kind ≠ .block) (h : ∀ node ∈ nodes, node.Whole) : Node.Whole ⟨kind, span, nodes⟩ :=
  ⟨.mk shape fun node hn => (h node hn).formed, hk⟩

theorem gives_callArguments : Gives callArguments fun arguments =>
    ∀ first last, (arguments.toNode first last).Whole := by
  refine .orElse ?_ ?_
  · refine (gives_comprehension (.inr rfl)).bind fun generator hg => .pure ?_
    intro first last
    exact ⟨.one trivial hg.formed, by simp [Arguments.toNode, bracketed]⟩
  · refine (gives_commaList gives_callItem).bind fun positional hp => ?_
    have behind : Gives (do
        let semicolon ← punctuation ';'
        let items ← commaList callItem
        return (semicolon, items)) fun pair => ∀ node ∈ pair.2, node.Whole :=
      (Gives.token _).skip fun _ => (gives_commaList gives_callItem).bind fun _ hi => .pure hi
    refine behind.option.bind fun keywords hk => .pure ?_
    intro first last
    refine whole_all trivial (by decide) ?_
    intro node hn
    rcases List.mem_append.mp hn with hn | hn
    · exact hp node hn
    · simp only [Option.mem_toList, Option.map_eq_some_iff] at hn
      obtain ⟨pair, rfl, rfl⟩ := hn
      exact whole_all trivial (by decide) (hk pair rfl)

theorem gives_indexArguments : Gives indexArguments fun nodes => ∀ node ∈ nodes, node.Whole := by
  refine .orElse ?_ (gives_commaList (Gives.rule Row.arrow))
  refine (gives_comprehension (.inl rfl)).bind fun node hn => .pure ?_
  simpa using hn.whole (by decide)

theorem gives_argumentList {first : Parser Token} {P : Token → Prop} (hf : Gives first P) :
    Gives (argumentList first) Node.Whole :=
  hf.skip fun first => gives_callArguments.bind fun _ ha =>
    (Gives.token _).skip fun last => .pure (ha first last)

theorem gives_doClause : Gives doClause Node.Whole := by
  refine (Gives.token _).skip fun first => ?_
  refine (((Gives.rule Row.arrow).separated gives_comma).map fun _ h =>
    @formedAs_placed .parameterList first.span.stop _ (fun _ => trivial) h).bind fun list hl => ?_
  refine gives_block.bind fun body hb => (Gives.token _).skip fun last => .pure ?_
  have hb := hb.placeBlock list.span.stop
  exact ⟨.two ⟨_, _, rfl, hl.kind, hb.kind⟩ hl.formed hb.formed, by simp [bracketed]⟩

end Arguments

end CellBindings
