import CellBindings.Proofs.FileTrees
import CellBindings.Proofs.TreeShapes

/-!
The rules of the grammar and the shapes of what they find, up to the tree of a text.
-/

namespace CellBindings

open CellBindings.Parser Grammar

section Atoms

theorem gives_paren : Gives paren Node.Whole := by
  refine .orElse ?_ (.orElse ?_ (.orElse ?_ (.orElse ?_ (.orElse ?_ ?_))))
  · exact (Gives.token _).skip fun _ => (Gives.token _).skip fun _ =>
      .pure ⟨.childless trivial, by simp [bracketed]⟩
  · refine (Gives.token _).skip fun _ => (Gives.token _).skip fun semicolon => ?_
    refine (gives_commaList gives_callItem).bind fun items hi => (Gives.token _).skip fun _ => ?_
    have behind : (keywordArguments semicolon items).Whole := whole_all trivial (by decide) hi
    exact .pure ⟨.one trivial behind.formed, by simp [bracketed]⟩
  · refine (Gives.token _).skip fun _ => (gives_comprehension (.inr rfl)).bind fun node hn => ?_
    exact (Gives.token _).skip fun _ => .pure ⟨hn.formed.respan hn.kind, by simp [bracketed]⟩
  · refine (Gives.token _).skip fun _ => gives_callItem.bind fun item hi => ?_
    refine (Gives.token (·.isPunctuation ',')).skip fun _ => ?_
    refine (gives_commaList gives_callItem).bind fun items hs => (Gives.token _).skip fun _ => ?_
    exact .pure ⟨.cons trivial hi.formed fun node hn => (hs node hn).formed, by simp [bracketed]⟩
  · refine (Gives.token _).skip fun _ => (Gives.rule Row.statement).bind fun node hn => ?_
    exact (Gives.token _).skip fun _ => .pure ⟨.one trivial hn.formed, by simp [bracketed]⟩
  · refine (Gives.token _).skip fun _ => ?_
    refine ((Gives.rule Row.statement).separated1 (Gives.token (·.isPunctuation ';'))).bind
      fun nodes hn => ?_
    refine (Gives.option (Gives.token (·.isPunctuation ';'))).skip fun _ => ?_
    have block : (Node.wrap .block nodes).Formed := .mk trivial fun node h => (hn node h).formed
    exact (Gives.token _).skip fun _ => .pure ⟨.one trivial block, by simp [bracketed]⟩

theorem gives_matrixRow : Gives matrixRow Node.Whole :=
  (Gives.rule Row.arrow).many1.map fun _ h => whole_all trivial (by decide) h

theorem gives_bracket : Gives bracket Node.Whole := by
  refine .orElse ?_ (.orElse ?_ (.orElse ?_ ?_))
  · exact (Gives.token _).skip fun _ => (Gives.token _).skip fun _ =>
      .pure ⟨.childless trivial, by simp [bracketed]⟩
  · refine (Gives.token _).skip fun _ => (gives_comprehension (.inl rfl)).bind fun node hn => ?_
    exact (Gives.token _).skip fun _ => .pure ⟨hn.formed.respan hn.kind, by simp [bracketed]⟩
  · refine (Gives.token _).skip fun _ => ?_
    refine ((Gives.rule Row.arrow).separated1 gives_comma).bind fun items hi => ?_
    exact gives_comma.option.skip fun _ => (Gives.token _).skip fun _ =>
      .pure (whole_all trivial (by decide) hi)
  · refine (Gives.token _).skip fun _ => ?_
    refine (gives_matrixRow.separated1 (Gives.token (·.isPunctuation ';'))).bind fun rows hr => ?_
    exact (Gives.option (Gives.token (·.isPunctuation ';'))).skip fun _ =>
      (Gives.token _).skip fun _ => .pure (whole_all trivial (by decide) hr)

theorem gives_braces : Gives braces Node.Whole :=
  (Gives.token _).skip fun _ => (gives_commaList (Gives.rule Row.arrow)).bind fun _ hi =>
    (Gives.token _).skip fun _ => .pure (whole_all trivial (by decide) hi)

theorem gives_interpolation : Gives interpolation (Node.FormedAs .interpolation) := by
  refine (Gives.token _).skip fun _ => ?_
  refine (Gives.orElse (gives_name.mono fun _ h => h.whole (by decide))
    (Gives.rule Row.paren)).bind fun node hn => .pure ?_
  exact ⟨.one trivial hn.formed, rfl⟩

theorem gives_stringLiteral : Gives stringLiteral Node.Whole := by
  refine (Gives.token _).skip fun _ => ?_
  have part : Gives ((some <$> interpolation) <|> ((fun _ => none) <$> kind .stringChunk))
      fun part => ∀ node ∈ part, node.Whole := by
    refine .orElse (gives_interpolation.map ?_) ((Gives.token _).map ?_)
    · intro node hn other ho
      cases ho
      exact hn.whole (by decide)
    · intro _ _ node hn
      cases hn
  refine part.many.bind fun parts hp => (Gives.token _).skip fun _ => .pure ?_
  refine whole_all trivial (by decide) ?_
  intro node hn
  obtain ⟨part, hm, found⟩ := List.mem_filterMap.mp hn
  exact hp part hm node found

theorem gives_quotation : Gives quotation Node.Whole :=
  (Gives.token _).skip fun _ => (Gives.ahead _).skip fun _ => (Gives.rule Row.paren).bind
    fun _ hn => .pure ⟨.one trivial hn.formed, by simp⟩

def Node.IsLeaf (node : Node) : Prop := node.Formed ∧ node.kind.isLeaf = true

theorem Node.IsLeaf.whole {node : Node} (h : node.IsLeaf) : node.Whole := by
  refine ⟨h.1, ?_⟩
  intro block
  have leaf := h.2
  rw [block] at leaf
  cases leaf

theorem gives_symbol : Gives symbol Node.IsLeaf := by
  refine .orElse ?_ ?_
  · exact (Gives.token _).skip fun _ => (Gives.token _).skip fun _ => .pure ⟨.childless rfl, rfl⟩
  · exact (Gives.token _).map fun _ _ => ⟨.childless rfl, rfl⟩

theorem gives_factor : Gives factor Node.Whole :=
  .orElse (gives_wholeLeaf (Gives.token _) rfl (by decide))
    ((Gives.ahead _).skip fun _ => Gives.rule Row.paren)

theorem gives_number : Gives number Node.Whole := by
  have literals : Gives (leaf .integerLiteral <$> kind .integer <|> leaf .floatLiteral <$> kind .float)
      Node.Whole :=
    .orElse (gives_wholeLeaf (Gives.token _) rfl (by decide))
      (gives_wholeLeaf (Gives.token _) rfl (by decide))
  refine literals.bind fun literal hl => ?_
  refine gives_factor.option.bind fun right hr => ?_
  cases right with
  | none => exact .pure hl
  | some right => exact .pure ⟨.two trivial hl.formed (hr right rfl).formed, by simp [Node.wrap]⟩

theorem gives_operatorValue : Gives operatorValue Node.Whole :=
  (Gives.token _).skip fun _ => (Gives.ahead _).skip fun _ =>
    .pure ⟨.childless rfl, by simp [leaf, Node.leaf]⟩

theorem gives_macroName : Gives macroName (Node.FormedAs .macroIdentifier) :=
  gives_leaf (Gives.token _) rfl

theorem formedAs_fieldAccess {base field : Node} (hb : base.Formed) (hf : field.IsLeaf) :
    (fieldAccess base field).FormedAs .fieldExpression :=
  ⟨.two ⟨_, _, rfl, .inl hf.2⟩ hb hf.1, rfl⟩

theorem formed_path {path : List Node} {base : Node} (hp : ∀ name ∈ path, name.FormedAs .identifier)
    (hb : base.Formed) : (path.foldl fieldAccess base).Formed := by
  induction path generalizing base with
  | nil => exact hb
  | cons name path ih =>
    have hn := hp name (by simp)
    have first := formedAs_fieldAccess hb ⟨hn.formed, by rw [hn.kind]; rfl⟩
    exact ih (fun other ho => hp other (by simp [ho])) first.formed

theorem gives_macroCallee : Gives macroCallee Node.Whole := by
  refine .orElse ?_ (gives_macroName.mono fun _ h => h.whole (by decide))
  refine gives_name.bind fun base hb => ?_
  refine ((Gives.token _).skip fun _ => gives_name).many.bind fun path hp => ?_
  refine (Gives.token _).skip fun _ => gives_macroName.bind fun callee hc => .pure ?_
  have leaf : callee.IsLeaf := ⟨hc.formed, by rw [hc.kind]; rfl⟩
  exact (formedAs_fieldAccess (formed_path hp hb.formed) leaf).whole (by decide)

theorem gives_macroCall : Gives macroCall Node.Whole := by
  refine .orElse ?_ ?_
  · refine gives_macroCallee.bind fun callee hc => ?_
    refine (gives_argumentList (Gives.token _)).bind fun arguments ha => .pure ?_
    exact ⟨.two trivial hc.formed ha.formed, by simp [Node.wrap]⟩
  · refine gives_macroCallee.bind fun callee hc => ?_
    refine (Gives.rule Row.statement).many.bind fun arguments ha => .pure ?_
    exact ⟨.cons trivial hc.formed fun node hn => (ha node hn).formed, by simp [Node.wrap]⟩

end Atoms

section Blocks

theorem gives_signature : Gives signature (Node.FormedAs .signature) :=
  (Gives.rule Row.whereExpression).bind fun _ hn => .pure ⟨.one ⟨_, rfl⟩ hn.formed, rfl⟩

theorem gives_definition {word : Keyword} {kind : Kind} {head : Parser Node} {P : Node → Prop}
    (hh : Gives head P) (formed : ∀ node, P node → node.Formed) (hk : kind ≠ .block)
    (shape : ∀ head body, P head → body.kind = .block → kind.Shapes [head, body]) :
    Gives (definition word kind head) Node.Whole := by
  refine (Gives.token _).skip fun _ => hh.bind fun head hh => ?_
  refine gives_block.bind fun body hb => (Gives.token _).skip fun _ => .pure ⟨?_, hk⟩
  have hb := hb.placeBlock head.span.stop
  exact .two (shape _ _ hh hb.kind) (formed _ hh) hb.formed

theorem gives_enclosed {word : Keyword} {kind : Kind} (shape : ∀ body, kind.Shapes [body])
    (hk : kind ≠ .block) : Gives (enclosed word kind) Node.Whole := by
  refine (Gives.token _).skip fun first => gives_block.bind fun body hb => ?_
  have hb := hb.placeBlock first.span.stop
  exact (Gives.token _).skip fun _ => .pure ⟨.one (shape _) hb.formed, hk⟩

theorem gives_letBlock : Gives letBlock Node.Whole := by
  refine (Gives.token _).skip fun first => ?_
  refine (((Gives.rule Row.expression).separated gives_comma).map fun _ h =>
    @formedAs_placed .letBindings first.span.stop _ (fun _ => trivial) h).bind fun list hl => ?_
  refine gives_block.bind fun body hb => (Gives.token _).skip fun last => .pure ?_
  have hb := hb.placeBlock list.span.stop
  exact ⟨.two ⟨_, _, rfl, hl.kind, hb.kind⟩ hl.formed hb.formed, by simp [bracketed]⟩

theorem gives_forBlock : Gives forBlock Node.Whole := by
  refine (Gives.token _).skip fun first => gives_forBindings.bind fun bindings hi => ?_
  refine gives_block.bind fun body hb => (Gives.token _).skip fun last => .pure ?_
  have hb := hb.placeBlock ((bindings.getLast?.map (·.span.stop)).getD first.span.stop)
  refine ⟨.mk ⟨_, _, rfl, fun node hn => (hi node hn).kind, hb.kind⟩ ?_, by simp [bracketed]⟩
  intro node hn
  rcases List.mem_append.mp hn with hn | hn
  · exact (hi node hn).formed
  · obtain rfl := List.mem_singleton.mp hn
    exact hb.formed

theorem gives_part {word : Keyword} (kind : Kind) (shape : ∀ body, kind.Shapes [body])
    (hk : kind ≠ .block) : Gives (part word kind) Node.Whole := by
  refine (Gives.token _).skip fun first => gives_block.bind fun body hb => .pure ?_
  have hb := hb.placeBlock first.span.stop
  exact ⟨.one (shape _) hb.formed, hk⟩

theorem gives_elseifClause : Gives elseifClause Node.Whole := by
  refine (Gives.token _).skip fun _ => (Gives.rule Row.arrow).bind fun condition hc => ?_
  refine gives_block.bind fun body hb => .pure ?_
  have hb := hb.placeBlock condition.span.stop
  exact ⟨.two trivial hc.formed hb.formed, by simp⟩

theorem gives_ifBlock : Gives ifBlock Node.Whole := by
  refine (Gives.token _).skip fun _ => (Gives.rule Row.arrow).bind fun condition hc => ?_
  refine gives_block.bind fun body hb => gives_elseifClause.many.bind fun others hs => ?_
  refine (gives_part .elseClause (fun _ => trivial) (by decide)).option.bind fun otherwise ho => ?_
  refine (Gives.token _).skip fun _ => .pure ⟨.cons trivial hc.formed ?_, by simp [bracketed]⟩
  have hb := hb.placeBlock condition.span.stop
  intro node hn
  rcases List.mem_cons.mp hn with rfl | hn
  · exact hb.formed
  · rcases List.mem_append.mp hn with hn | hn
    · exact (hs node hn).formed
    · exact (ho node (Option.mem_toList.mp hn)).formed

theorem gives_catchClause : Gives catchClause Node.Whole := by
  refine (Gives.token _).skip fun first => gives_name.option.bind fun caught hc => ?_
  refine gives_block.bind fun body hb => .pure ⟨.mk trivial ?_, by simp⟩
  have hb := hb.placeBlock ((caught.map (·.span.stop)).getD first.span.stop)
  intro node hn
  rcases List.mem_append.mp hn with hn | hn
  · exact (hc node (Option.mem_toList.mp hn)).formed
  · obtain rfl := List.mem_singleton.mp hn
    exact hb.formed

theorem gives_tryBlock : Gives tryBlock Node.Whole := by
  refine (Gives.token _).skip fun first => gives_block.bind fun body hb => ?_
  refine gives_catchClause.option.bind fun handler hh => ?_
  refine (gives_part .elseClause (fun _ => trivial) (by decide)).option.bind fun otherwise ho => ?_
  refine (gives_part .finallyClause (fun _ => trivial) (by decide)).option.bind fun cleanup hc => ?_
  have hb := hb.placeBlock first.span.stop
  refine (Gives.token _).skip fun _ => .pure ⟨.cons trivial hb.formed ?_, by simp [bracketed]⟩
  intro node hn
  simp only [List.mem_append, Option.mem_toList] at hn
  rcases hn with hn | hn | hn
  · exact (hh node hn).formed
  · exact (ho node hn).formed
  · exact (hc node hn).formed

theorem gives_blockConstruct : Gives blockConstruct Node.Whole := by
  refine .orElse ?_ (.orElse ?_ (.orElse gives_letBlock (.orElse gives_forBlock (.orElse ?_
    (.orElse gives_ifBlock (.orElse gives_tryBlock ?_))))))
  · exact gives_definition gives_signature (fun _ h => h.formed) (by decide)
      fun _ _ hh hb => ⟨_, _, rfl, hh.kind, hb⟩
  · exact gives_enclosed (fun _ => trivial) (by decide)
  · exact gives_definition (Gives.rule Row.arrow) (fun _ h => h.formed) (by decide)
      fun _ _ hh hb => ⟨_, _, rfl, hh.kind, hb⟩
  · exact gives_enclosed (fun _ => trivial) (by decide)

theorem gives_atom : Gives atom Node.Whole := by
  have leaf {kind : Kind} {p : Parser Token} {P : Token → Prop} (hp : Gives p P)
      (shape : kind.Shapes []) (hk : kind ≠ .block) := gives_wholeLeaf hp shape hk
  refine .orElse gives_macroCall (.orElse (gives_name.mono fun _ h => h.whole (by decide)) ?_)
  refine .orElse gives_number (.orElse gives_stringLiteral ?_)
  refine .orElse (leaf (Gives.token _) rfl (by decide)) ?_
  refine .orElse (leaf (.orElse (Gives.token _) (Gives.token _)) rfl (by decide)) ?_
  refine .orElse (leaf (Gives.token _) rfl (by decide)) (.orElse gives_quotation ?_)
  refine .orElse (gives_symbol.mono fun _ h => h.whole) ?_
  refine .orElse (gives_interpolation.mono fun _ h => h.whole (by decide)) ?_
  refine .orElse (Gives.rule Row.paren) (.orElse gives_bracket (.orElse gives_braces ?_))
  exact .orElse gives_blockConstruct gives_operatorValue

end Blocks

section Expressions

theorem gives_suffix : Gives suffix fun suffix => ∀ base : Node, base.Whole → (suffix.apply base).Whole := by
  refine .orElse ?_ (.orElse ?_ (.orElse ?_ (.orElse ?_ (.orElse ?_ (.orElse ?_ ?_)))))
  · refine (gives_argumentList (Gives.token _)).bind fun arguments ha => ?_
    refine gives_doClause.option.bind fun block hb => .pure ?_
    intro base hbase
    refine whole_all trivial (by decide) ?_
    intro node hn
    simp only [List.mem_cons, Option.mem_toList] at hn
    rcases hn with rfl | rfl | hn
    · exact hbase
    · exact ha
    · exact hb node hn
  · refine (Gives.token _).skip fun _ => (gives_argumentList (Gives.token _)).bind
      fun arguments ha => .pure ?_
    intro base hb
    exact ⟨.two trivial hb.formed ha.formed, by simp [Suffix.apply, Node.wrap]⟩
  · refine (Gives.token _).skip fun _ => ?_
    have field : Gives fieldName fun node =>
        node.Formed ∧ (node.kind.isLeaf = true ∨ node.kind = .interpolation) := by
      refine .orElse (gives_name.mono fun _ h => ⟨h.formed, .inl (by rw [h.kind]; rfl)⟩) ?_
      exact .orElse (gives_interpolation.mono fun _ h => ⟨h.formed, .inr h.kind⟩)
        (gives_symbol.mono fun _ h => ⟨h.1, .inl h.2⟩)
    refine field.bind fun name hn => .pure ?_
    intro base hb
    exact ⟨.two ⟨_, _, rfl, hn.2⟩ hb.formed hn.1, by simp [Suffix.apply, Node.wrap]⟩
  · refine (Gives.token _).skip fun _ => gives_indexArguments.bind fun arguments ha => ?_
    refine (Gives.token _).skip fun _ => .pure ?_
    intro base hb
    exact ⟨.cons trivial hb.formed fun node hn => (ha node hn).formed, by simp [Suffix.apply]⟩
  · refine (Gives.token _).skip fun _ => ?_
    refine (gives_commaList (Gives.rule Row.arrow)).bind fun arguments ha => ?_
    refine (Gives.token _).skip fun _ => .pure ?_
    intro base hb
    exact ⟨.cons trivial hb.formed fun node hn => (ha node hn).formed, by simp [Suffix.apply]⟩
  · refine (Gives.token _).map ?_
    intro _ _ base hb
    exact ⟨.one trivial hb.formed, by simp [Suffix.apply]⟩
  · refine (Gives.token _).map ?_
    intro _ _ base hb
    exact ⟨.one ⟨_, rfl⟩ hb.formed, by simp [Suffix.apply]⟩

/-- What each item of a list keeps is kept by all of them. -/
theorem whole_foldl {α : Type} {f : Node → α → Node} {items : List α} {base : Node}
    (step : ∀ item ∈ items, ∀ node : Node, node.Whole → (f node item).Whole) (hb : base.Whole) :
    (items.foldl f base).Whole := by
  induction items generalizing base with
  | nil => exact hb
  | cons item items ih =>
    exact ih (fun other ho => step other (by simp [ho])) (step item (by simp) base hb)

theorem gives_primary : Gives primary Node.Whole :=
  gives_atom.bind fun _ hb => gives_suffix.many.bind fun _ hs => .pure (whole_foldl hs hb)

theorem gives_typed : Gives typed Node.Whole := by
  refine (Gives.rule Row.primary).bind fun value hv => ?_
  refine ((Gives.token _).skip fun _ => Gives.rule Row.primary).many.bind fun types ht => .pure ?_
  refine whole_foldl ?_ hv
  intro type hm node hn
  exact ⟨.two ⟨_, _, rfl⟩ hn.formed (ht type hm).formed, by simp [Node.wrap]⟩

theorem whole_foldBinary {first : Node} {rest : List (Token × Node)} (hf : first.Whole)
    (hr : ∀ pair ∈ rest, pair.2.Whole) : (foldBinary first rest).Whole := by
  refine whole_foldl ?_ hf
  intro pair hp node hn
  exact ⟨.three ⟨_, _, _, rfl, rfl⟩ hn.formed (.childless rfl) (hr pair hp).formed,
    by simp [binary, Node.wrap]⟩

theorem gives_power : Gives power Node.Whole := by
  refine (Gives.rule Row.typed).bind fun base hb => ?_
  have raised : Gives (do
      let op ← operator ['^'] <|> operator ['.', '^']
      let exponent ← Parser.rule Row.unary
      return (op, exponent)) fun pair => pair.2.Whole :=
    (Gives.orElse (Gives.token _) (Gives.token _)).skip fun _ =>
      (Gives.rule Row.unary).bind fun _ he => .pure he
  refine raised.option.bind fun pair hp => .pure (whole_foldBinary hb ?_)
  intro found hf
  exact hp found (Option.mem_toList.mp hf)

theorem gives_unary : Gives unary Node.Whole := by
  refine .orElse ?_ (.orElse ?_ gives_power)
  · refine (Gives.token _).skip fun _ => (Gives.rule Row.unary).bind fun operand ho => .pure ?_
    exact ⟨.two trivial (.childless rfl) ho.formed, by simp [Node.wrap]⟩
  · exact (Gives.token _).skip fun _ => (Gives.rule Row.unary).bind fun _ ht =>
      .pure ⟨.one trivial ht.formed, by simp⟩

theorem whole_combine {level : Level} {first : Node} {rest : List (Token × Node)}
    (hf : first.Whole) (hr : ∀ pair ∈ rest, pair.2.Whole) : (level.combine first rest).Whole := by
  unfold Level.combine
  split
  · refine ⟨.cons trivial hf.formed ?_, by simp [Node.wrap]⟩
    intro node hn
    obtain ⟨pair, hp, rfl⟩ := List.mem_map.mp hn
    exact (hr pair hp).formed
  · exact whole_foldBinary hf hr

theorem gives_chain (levels : List Level) : Gives (chain levels) Node.Whole := by
  induction levels with
  | nil => exact Gives.rule Row.unary
  | cons level tighter ih =>
    have operand : Gives (do
        let op ← Parser.token level.accepts
        let operand ← chain tighter
        return (op, operand)) fun pair => pair.2.Whole :=
      (Gives.token _).skip fun _ => ih.bind fun _ ho => .pure ho
    exact ih.bind fun _ hf => operand.many.bind fun _ hr => .pure (whole_combine hf hr)

theorem gives_ternary : Gives ternary Node.Whole := by
  refine (gives_chain _).bind fun condition hc => ?_
  have branches : Gives (do
      let _ ← operator ['?']
      let yes ← Parser.rule Row.ternary
      let _ ← kind .ternaryColon
      let no ← Parser.rule Row.ternary
      return [yes, no]) fun nodes => ∀ node ∈ nodes, node.Whole := by
    refine (Gives.token _).skip fun _ => (Gives.rule Row.ternary).bind fun yes hy => ?_
    refine (Gives.token _).skip fun _ => (Gives.rule Row.ternary).bind fun no hn => .pure ?_
    simpa using ⟨hy, hn⟩
  refine branches.option.bind fun found hf => ?_
  cases found with
  | none => exact .pure hc
  | some nodes =>
    exact .pure ⟨.cons trivial hc.formed fun node hn => (hf nodes rfl node hn).formed,
      by simp [Node.wrap]⟩

theorem gives_pair : Gives pair Node.Whole := by
  refine (Gives.rule Row.ternary).bind fun left hl => ?_
  have right : Gives (do
      let op ← operator ['=', '>']
      let right ← Parser.rule Row.pair
      return (op, right)) fun pair => pair.2.Whole :=
    (Gives.token _).skip fun _ => (Gives.rule Row.pair).bind fun _ hr => .pure hr
  refine right.option.bind fun found hf => .pure (whole_foldBinary hl ?_)
  intro pair hp
  exact hf pair (Option.mem_toList.mp hp)

theorem gives_whereExpression : Gives whereExpression Node.Whole := by
  refine (Gives.rule Row.pair).bind fun inner hi => ?_
  refine ((Gives.token _).skip fun _ => Gives.rule Row.pair).many.bind fun clauses hc => .pure ?_
  split
  · exact hi
  · exact ⟨.cons ⟨_, _, rfl⟩ hi.formed fun node hn => (hc node hn).formed, by simp [Node.wrap]⟩

theorem gives_arrow : Gives arrow Node.Whole := by
  refine (Gives.rule Row.whereExpression).bind fun parameters hp => ?_
  refine ((Gives.token _).skip fun _ => Gives.rule Row.expression).option.bind fun body hb => ?_
  cases body with
  | none => exact .pure hp
  | some body =>
    exact .pure ⟨.two ⟨_, _, rfl⟩ hp.formed (hb body rfl).formed, by simp [Node.wrap]⟩

theorem gives_assigned {right : Parser Node} (hr : Gives right Node.Whole) :
    Gives (assigned right) fun pair => pair.2.Whole :=
  (Gives.token _).skip fun _ => hr.bind fun _ h => .pure h

theorem whole_maybeAssigned {left : Node} {right : Option (Token × Node)} (hl : left.Whole)
    (hr : ∀ pair ∈ right, pair.2.Whole) : (maybeAssigned left right).Whole := by
  cases right with
  | none => exact hl
  | some pair =>
    obtain ⟨op, right⟩ := pair
    have formed : (leaf .operator op).Formed := .childless rfl
    have hr := (hr _ rfl).formed
    simp only [maybeAssigned, Grammar.assignment]
    split
    · exact ⟨.three ⟨_, _, _, rfl, rfl⟩ hl.formed formed hr, by simp [Node.wrap]⟩
    · exact ⟨.three ⟨_, _, _, rfl, rfl⟩ hl.formed formed hr, by simp [Node.wrap]⟩

theorem gives_expression : Gives expression Node.Whole :=
  (Gives.rule Row.arrow).bind fun _ hl => (gives_assigned (Gives.rule Row.expression)).option.bind
    fun _ hr => .pure (whole_maybeAssigned hl hr)

theorem gives_openTuple : Gives openTuple Node.Whole := by
  refine (Gives.rule Row.arrow).bind fun first hf => ?_
  refine ((Gives.token (·.isPunctuation ',')).skip fun _ => Gives.rule Row.arrow).many.bind
    fun rest hr => ?_
  refine gives_comma.option.skip fun trailing => ?_
  have tuple {span : Span} : Node.Whole ⟨.tupleExpression, span, first :: rest⟩ :=
    ⟨.cons trivial hf.formed fun node hn => (hr node hn).formed, by simp⟩
  cases trailing with
  | some t => exact .pure tuple
  | none =>
    refine .pure ?_
    dsimp only
    split
    · exact hf
    · exact tuple

theorem gives_assignmentExpression : Gives assignmentExpression Node.Whole :=
  gives_openTuple.bind fun _ hl => (gives_assigned (Gives.rule Row.assignment)).option.bind
    fun _ hr => .pure (whole_maybeAssigned hl hr)

end Expressions

section Statements

theorem gives_typeHead : Gives typeHead (Node.FormedAs .typeHead) :=
  (gives_chain _).bind fun _ hn => .pure ⟨.one ⟨_, rfl⟩ hn.formed, rfl⟩

theorem gives_structDefinition : Gives structDefinition Node.Whole := by
  refine (Gives.option (Gives.token (·.isKeyword .mutableKw))).skip fun _ => ?_
  refine (Gives.token _).skip fun _ => gives_typeHead.bind fun head hh => ?_
  refine gives_block.bind fun body hb => (Gives.token _).skip fun _ => .pure ?_
  have hb := hb.placeBlock head.span.stop
  exact ⟨.two ⟨_, _, rfl, hh.kind, hb.kind⟩ hh.formed hb.formed, by simp [bracketed]⟩

theorem gives_abstractDefinition : Gives abstractDefinition Node.Whole := by
  refine (Gives.token _).skip fun _ => (Gives.token _).skip fun _ => ?_
  refine gives_typeHead.bind fun head hh => (Gives.token _).skip fun _ => .pure ?_
  exact ⟨.one ⟨_, _, rfl, hh.kind⟩ hh.formed, by simp [bracketed]⟩

theorem gives_primitiveDefinition : Gives primitiveDefinition Node.Whole := by
  refine (Gives.token _).skip fun _ => (Gives.token _).skip fun _ => ?_
  refine gives_typeHead.bind fun head hh => (Gives.rule Row.arrow).bind fun bits hb => ?_
  refine (Gives.token _).skip fun _ => .pure ?_
  exact ⟨.two ⟨_, _, rfl, hh.kind⟩ hh.formed hb.formed, by simp [bracketed]⟩

theorem gives_moduleDefinition : Gives moduleDefinition Node.Whole := by
  have named (word : Keyword) : Gives (definition word .moduleDefinition name) Node.Whole :=
    gives_definition gives_name (fun _ h => h.formed) (by decide)
      fun _ _ hh hb => ⟨_, _, rfl, hh.kind, hb⟩
  exact .orElse (named _) (named _)

def Node.IsImportName (node : Node) : Prop := node.Formed ∧ node.kind.isImportable = true

theorem gives_importName : Gives importName Node.IsImportName := by
  refine .orElse (gives_name.mono ?_) (.orElse (gives_macroName.mono ?_)
    ((@gives_leaf .operator _ _ (Gives.token _) rfl).mono ?_))
  · exact fun _ h => ⟨h.formed, by rw [h.kind]; rfl⟩
  · exact fun _ h => ⟨h.formed, by rw [h.kind]; rfl⟩
  · exact fun _ h => ⟨h.formed, by rw [h.kind]; rfl⟩

theorem gives_importPath : Gives importPath Node.Whole := by
  refine (Gives.orElse (Gives.token _) (.orElse (Gives.token _) (Gives.token _))).many.skip
    fun _ => ?_
  refine gives_importName.bind fun first hf => ?_
  refine ((Gives.token _).skip fun _ => gives_importName).many.bind fun rest hr => .pure ?_
  have names : ∀ name ∈ first :: rest, name.IsImportName := by
    intro name hn
    rcases List.mem_cons.mp hn with rfl | hn
    · exact hf
    · exact hr name hn
  exact ⟨.mk (fun name hn => (names name hn).2) fun name hn => (names name hn).1, by simp⟩

theorem gives_importItem : Gives importItem Node.Whole := by
  refine gives_importPath.bind fun path hp => ?_
  refine ((Gives.token _).skip fun _ => gives_importName).option.bind fun name hn => ?_
  cases name with
  | none => exact .pure hp
  | some name =>
    have hn := hn name rfl
    exact .pure ⟨.two ⟨_, _, rfl, hn.2⟩ hp.formed hn.1, by simp [Node.wrap]⟩

theorem gives_importItems : Gives importItems fun nodes => ∀ node ∈ nodes, node.Whole := by
  have items := gives_importItem.separated1 gives_comma
  refine .orElse ?_ items
  refine gives_importPath.bind fun path hp => (Gives.token _).skip fun _ => ?_
  refine items.bind fun nodes hn => .pure ?_
  have selected : (Node.wrap .selectedImport (path :: nodes)).Whole :=
    ⟨.cons trivial hp.formed fun node h => (hn node h).formed, by simp [Node.wrap]⟩
  simpa using selected

theorem gives_importStatement : Gives importStatement Node.Whole := by
  refine (Gives.orElse (Gives.token _) (Gives.token _)).skip fun word => ?_
  refine gives_importItems.bind fun items hi => .pure ?_
  split
  · exact whole_all trivial (by decide) hi
  · exact whole_all trivial (by decide) hi

theorem gives_exportStatement : Gives exportStatement Node.Whole :=
  (Gives.token _).skip fun _ => (gives_importName.separated1 gives_comma).bind fun _ hn =>
    .pure ⟨.mk trivial fun node h => (hn node h).1, by simp⟩

theorem gives_declaration {word : Keyword} {kind : Kind} (shape : ∀ node, kind.Shapes [node])
    (hk : kind ≠ .block) : Gives (declaration word kind) Node.Whole :=
  (Gives.token _).skip fun _ => (Gives.rule Row.assignment).bind fun _ hn =>
    .pure ⟨.one (shape _) hn.formed, hk⟩

theorem gives_returnStatement : Gives returnStatement Node.Whole := by
  refine (Gives.token _).skip fun _ => (Gives.rule Row.assignment).option.bind fun value hv => ?_
  refine .pure (whole_all trivial (by decide) ?_)
  intro node hn
  exact hv node (Option.mem_toList.mp hn)

theorem gives_keywordStatement : Gives keywordStatement Node.Whole := by
  refine .orElse gives_structDefinition (.orElse gives_abstractDefinition ?_)
  refine .orElse gives_primitiveDefinition (.orElse gives_moduleDefinition (.orElse ?_ ?_))
  · exact gives_definition gives_signature (fun _ h => h.formed) (by decide)
      fun _ _ hh hb => ⟨_, _, rfl, hh.kind, hb⟩
  refine .orElse gives_importStatement (.orElse gives_exportStatement ?_)
  refine .orElse (gives_declaration (fun _ => trivial) (by decide)) ?_
  refine .orElse (gives_declaration (fun _ => trivial) (by decide)) ?_
  refine .orElse (gives_declaration (fun _ => trivial) (by decide)) ?_
  refine .orElse gives_returnStatement ?_
  exact .orElse (gives_wholeLeaf (Gives.token _) rfl (by decide))
    (gives_wholeLeaf (Gives.token _) rfl (by decide))

theorem gives_statement : Gives statement Node.Whole :=
  .orElse gives_keywordStatement (Gives.rule Row.assignment)

theorem rules_whole : RulesMeet fun _ node => node.Whole :=
  ⟨gives_paren, gives_primary, gives_typed, gives_unary, gives_ternary, gives_pair,
    gives_whereExpression, gives_arrow, gives_expression, gives_assignmentExpression,
    gives_statement⟩

end Statements

theorem gives_fileItem : Gives fileItem Node.Whole := by
  refine .orElse ?_ (gives_unread _)
  refine (Gives.rule Row.statement).bind fun node hn => ?_
  have stop : Gives (ahead (token fun t => isSeparator t || isError t) <|> endOfTokens)
      fun _ => True :=
    .orElse (Gives.ahead _) (Reads.endOfTokens.mono fun _ _ _ _ => trivial)
  exact stop.skip fun _ => .pure hn

theorem gives_file : Gives file Node.Formed := by
  refine (Gives.token _).many.skip fun _ => ?_
  refine (gives_fileItem.separated (Gives.token isSeparator).many1).bind fun items hi => ?_
  refine (Gives.token _).many.skip fun _ => ?_
  refine (@gives_wholeLeaf .error _ _ (Gives.token _) rfl (by decide)).option.bind fun failure hf => ?_
  have last : Gives endOfTokens fun _ => True := Reads.endOfTokens.mono fun _ _ _ _ => trivial
  refine last.skip fun _ => .pure (.mk trivial ?_)
  intro node hn
  rcases List.mem_append.mp hn with hn | hn
  · exact (hi node hn).formed
  · exact (hf node (Option.mem_toList.mp hn)).formed

/-- Every node in the tree of a text has the shape of its kind. -/
theorem parse_formed (text : Text) : (parse text).Formed := by
  obtain ⟨_, ordered, _⟩ := tokenizeRecovering_wellPlaced text
  have meets := rules_whole.ofTokens ordered
  rw [← tokens_ofTokens (tokenizeRecovering text)] at ordered
  obtain ⟨items, _, found, root⟩ := parse_listing text
  obtain ⟨⟨tree, rest⟩, read, same⟩ := Option.map_eq_some_iff.mp found
  obtain ⟨_, _, formed⟩ := gives_file _ meets ordered tree rest read
  rw [← same]
  exact formed.respan rfl

end CellBindings
