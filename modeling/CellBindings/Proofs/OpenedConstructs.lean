import CellBindings.Proofs.RuleAnswers
import CellBindings.Proofs.TreeSpans

/-!
Constructs and the tokens that open them. A block word opens a construct that its `end` closes, and
a square bracket one that its partner closes. A rule that starts at such a token and leaves nothing
unread has read the construct first, so the construct stands there whole.
-/

namespace CellBindings

open CellBindings.Parser

namespace Node

theorem hasErrors_child {node child : Node} (clean : node.hasErrors = false)
    (mem : child ∈ node.children) : child.hasErrors = false := by
  simp only [hasErrors, List.any_eq_false] at clean ⊢
  intro n hn
  exact clean n (mem_preorder.mpr (.inr ⟨child, mem, hn⟩))

theorem hasErrors_wrap {kind : Kind} {children : List Node} {child : Node}
    (clean : (wrap kind children).hasErrors = false) (mem : child ∈ children) :
    child.hasErrors = false :=
  hasErrors_child clean mem

end Node

namespace Grammar

def construct? (t : Token) : Option (Parser Node) :=
  match t.kind with
  | .keyword .functionKw => some (definition .functionKw .functionDefinition signature)
  | .keyword .beginKw => some (enclosed .beginKw .beginBlock)
  | .keyword .letKw => some letBlock
  | .keyword .forKw => some forBlock
  | .keyword .whileKw => some (definition .whileKw .whileStatement (rule Row.arrow))
  | .keyword .ifKw => some ifBlock
  | .keyword .tryKw => some tryBlock
  | .keyword .quoteKw => some (enclosed .quoteKw .quoteStatement)
  | .keyword .mutableKw => some structDefinition
  | .keyword .structKw => some structDefinition
  | .keyword .primitiveKw => some primitiveDefinition
  | .keyword .moduleKw => some (definition .moduleKw .moduleDefinition name)
  | .keyword .baremoduleKw => some (definition .baremoduleKw .moduleDefinition name)
  | .keyword .macroKw => some (definition .macroKw .macroDefinition signature)
  | .keyword .doKw => some doClause
  | .punctuation => if t.text = ['['] then some bracket else none
  | _ => none

end Grammar

open Grammar

def Opens (ts : List Token) : Prop :=
  ∃ p ∈ ts.head?.bind construct?, ∃ node rest,
    p (Chart.ofTokens ts) = some (node, rest) ∧ node.hasErrors = false

theorem opens_iff (ts : List Token) :
    (((ts.head?.bind construct?).bind fun p => p (Chart.ofTokens ts)).any
      fun result => !result.1.hasErrors) = true ↔ Opens ts := by
  simp only [Opens, Option.any_eq_true, Option.bind_eq_some_iff, Bool.not_eq_true']
  constructor
  · rintro ⟨⟨node, rest⟩, ⟨p, opened, found⟩, clean⟩
    exact ⟨p, Option.bind_eq_some_iff.mpr opened, node, rest, found, clean⟩
  · rintro ⟨p, opened, node, rest, found, clean⟩
    exact ⟨(node, rest), ⟨p, Option.bind_eq_some_iff.mp opened, found⟩, clean⟩

instance (ts : List Token) : Decidable (Opens ts) := decidable_of_iff _ (opens_iff ts)

def Token.opens (t : Token) : Bool := (construct? t).isSome

def Plain (accepts : Token → Bool) : Prop := ∀ t, t.opens = true → accepts t = false

def Token.Kind.openers : List Token.Kind :=
  [.keyword .functionKw, .keyword .beginKw, .keyword .letKw, .keyword .forKw, .keyword .whileKw,
    .keyword .ifKw, .keyword .tryKw, .keyword .quoteKw, .keyword .mutableKw, .keyword .structKw,
    .keyword .primitiveKw, .keyword .moduleKw, .keyword .baremoduleKw, .keyword .macroKw,
    .keyword .doKw, .punctuation]

theorem kind_of_opens {t : Token} (h : t.opens = true) : t.kind ∈ Token.Kind.openers := by
  unfold Token.opens construct? at h
  split at h
  case h_17 => cases h
  all_goals simp_all [Token.Kind.openers]

theorem text_of_opens {t : Token} (h : t.opens = true) (hk : t.kind = .punctuation) :
    t.text = ['['] := by
  simpa [Token.opens, construct?, hk] using h

section Plain

theorem plain_of_kind {accepts : Token → Bool} {k : Token.Kind}
    (only : ∀ t, accepts t = true → t.kind = k) (plain : k ∉ Token.Kind.openers) :
    Plain accepts := by
  intro t opens
  cases accepted : accepts t with
  | false => rfl
  | true =>
    have mem := kind_of_opens opens
    rw [only t accepted] at mem
    exact absurd mem plain

theorem plain_kind {k : Token.Kind} (plain : k ∉ Token.Kind.openers) :
    Plain fun t => t.kind == k :=
  plain_of_kind (by simp) plain

theorem plain_keyword {word : Keyword} (plain : .keyword word ∉ Token.Kind.openers) :
    Plain fun t => t.isKeyword word :=
  plain_of_kind (by simp [Token.isKeyword]) plain

theorem plain_operator (spelling : Text) : Plain fun t => t.isOperator spelling := by
  apply @plain_of_kind _ .operator
  · simp +contextual [Token.isOperator]
  · decide

theorem plain_among (spellings : List Text) : Plain (isAmong spellings) := by
  apply @plain_of_kind _ .operator
  · simp +contextual [isAmong]
  · decide

theorem plain_punctuation {c : Char} (plain : c ≠ '[') : Plain fun t => t.isPunctuation c := by
  intro t opens
  by_cases hk : t.kind = .punctuation
  · have text := text_of_opens opens hk
    simp [Token.isPunctuation, text, Ne.symm plain]
  · simp [Token.isPunctuation, hk]

end Plain

def Declines {α : Type} (p : Parser α) : Prop :=
  ∀ row rest, row.token.opens = true → p (row :: rest) = none

namespace Declines

variable {α β : Type} {p q : Parser α}

theorem token {accepts : Token → Bool} (plain : Plain accepts) :
    Declines (Parser.token accepts) := by
  intro row rest opens
  simp [Parser.token, plain row.token opens]

theorem bind (h : Declines p) {f : α → Parser β} : Declines (p >>= f) := by
  intro row rest opens
  rw [bind_apply, h row rest opens]
  rfl

theorem map (h : Declines p) {f : α → β} : Declines (f <$> p) := h.bind

theorem orElse (hp : Declines p) (hq : Declines q) : Declines (p <|> q) := by
  intro row rest opens
  rw [orElse_apply, hp row rest opens, hq row rest opens]
  rfl

end Declines

def Constructs (p : Parser Node) : Prop :=
  ∀ t, construct? t = some p ∨ ∀ row rest, row.token = t → p (row :: rest) = none

theorem constructs_word {w : Keyword} {f : Token → Parser Node}
    (here : ∀ t : Token, t.kind = .keyword w → construct? t = some (keyword w >>= f)) :
    Constructs (keyword w >>= f) := by
  intro t
  by_cases hk : t.kind = .keyword w
  · exact .inl (here t hk)
  · refine .inr fun row rest same => ?_
    simp [bind_apply, keyword, token, Token.isKeyword, same, hk]

theorem constructs_bracket : Constructs bracket := by
  intro t
  by_cases ht : t.isPunctuation '[' = true
  · simp only [Token.isPunctuation, Bool.and_eq_true, beq_iff_eq] at ht
    exact .inl (by simp [construct?, ht.1, ht.2])
  · refine .inr fun row rest same => ?_
    have opening : ∀ {f : Token → Parser Node}, (punctuation '[' >>= f) (row :: rest) = none := by
      intro f
      simp [bind_apply, punctuation, token, same, ht]
    simp [bracket, orElse_apply, opening]

theorem constructs_structDefinition : Constructs structDefinition := by
  intro t
  by_cases hm : t.kind = .keyword .mutableKw
  · exact .inl (by simp only [construct?, hm])
  by_cases hs : t.kind = .keyword .structKw
  · exact .inl (by simp only [construct?, hs])
  · refine .inr fun row rest same => ?_
    have first : keyword .mutableKw (row :: rest) = none := by
      simp [keyword, token, Token.isKeyword, same, hm]
    have second : keyword .structKw (row :: rest) = none := by
      simp [keyword, token, Token.isKeyword, same, hs]
    simp [structDefinition, bind_apply, option_apply, first, second]

/-- Where a construct may open, the parser leaves nothing unread only behind a whole one. -/
def Heads (p : Parser Node) : Prop :=
  ∀ t ts, Ordered (t :: ts) → t.opens = true → ∀ node rest,
    p (Chart.ofTokens (t :: ts)) = some (node, rest) → node.hasErrors = false → Opens (t :: ts)

namespace Heads

variable {β : Type} {p q : Parser Node}

theorem of_declines (h : Declines p) : Heads p := by
  intro t ts _ opens node rest found
  rw [ofTokens_cons, h _ _ (by rwa [build_token])] at found
  cases found

theorem orElse (hp : Heads p) (hq : Heads q) : Heads (p <|> q) := by
  intro t ts ordered opens node rest found clean
  rcases orElse_eq_some.mp found with found | ⟨_, found⟩
  · exact hp t ts ordered opens node rest found clean
  · exact hq t ts ordered opens node rest found clean

/-- What follows a first node keeps it as a part. -/
theorem bind {f : Node → Parser Node} (h : Heads p)
    (keeps : ∀ first chart node rest, f first chart = some (node, rest) →
      node.hasErrors = false → first.hasErrors = false) : Heads (p >>= f) := by
  intro t ts ordered opens node rest found clean
  obtain ⟨first, mid, hp, hf⟩ := bind_eq_some.mp found
  exact h t ts ordered opens first mid hp (keeps first mid node rest hf clean)

theorem extend {q : Parser β} {g : Node → β → Node} (h : Heads p)
    (keeps : ∀ first b, (g first b).hasErrors = false → first.hasErrors = false) :
    Heads (do let first ← p; let b ← q; return g first b) := by
  refine h.bind fun first chart node rest found clean => ?_
  obtain ⟨b, _, _, hb⟩ := bind_eq_some.mp found
  obtain ⟨rfl, _⟩ := pure_eq_some.mp hb
  exact keeps first b clean

theorem construct (h : Constructs p) : Heads p := by
  intro t ts _ opens node rest found clean
  rcases h t with opened | declined
  · exact ⟨p, opened, node, rest, found, clean⟩
  · rw [ofTokens_cons, declined _ _ (build_token ..)] at found
    cases found

theorem rule {answer : Row → Answer} (h : Heads p)
    (run : ∀ ts, Ordered ts → Parser.rule answer (Chart.ofTokens ts) = p (Chart.ofTokens ts)) :
    Heads (Parser.rule answer) := by
  intro t ts ordered opens node rest found clean
  rw [run _ ordered] at found
  exact h t ts ordered opens node rest found clean

end Heads

theorem declines_paren : Declines paren := by
  have opening : ∀ {f : Token → Parser Node}, Declines (punctuation '(' >>= f) :=
    (Declines.token (plain_punctuation (by decide))).bind
  exact .orElse opening (.orElse opening (.orElse opening (.orElse opening
    (.orElse opening opening))))

theorem declines_name : Declines name := .map (.token (plain_kind (by decide)))

theorem declines_macroCall : Declines macroCall := by
  have callee : Declines macroCallee :=
    .orElse declines_name.bind (.map (.token (plain_kind (by decide))))
  exact .orElse callee.bind callee.bind

theorem declines_number : Declines number := by
  refine .bind (.orElse ?_ ?_)
  · exact .map (.token (plain_kind (by decide)))
  · exact .map (.token (plain_kind (by decide)))

theorem declines_operatorValue : Declines operatorValue := by
  refine .bind (.token (@plain_of_kind _ .operator ?_ (by decide)))
  simp +contextual

theorem heads_blockConstruct : Heads blockConstruct := by
  refine .orElse ?_ (.orElse ?_ (.orElse ?_ (.orElse ?_ (.orElse ?_ (.orElse ?_
    (.orElse ?_ ?_))))))
  all_goals exact .construct (constructs_word fun t ht => by simp only [construct?, ht]; rfl)

theorem heads_atom : Heads atom := by
  have boolean : Declines (leaf .booleanLiteral <$> (keyword .trueKw <|> keyword .falseKw)) :=
    .map (.orElse (.token (plain_keyword (by decide))) (.token (plain_keyword (by decide))))
  have paren : Heads (rule Row.paren) :=
    .rule (.of_declines declines_paren) fun ts ordered => (rulesRun_ofTokens ordered).paren
  have leafOf : ∀ {k : Token.Kind} {f : Token → Node}, k ∉ Token.Kind.openers →
      Heads (f <$> kind k) :=
    fun plain => .of_declines (.map (.token (plain_kind plain)))
  have symbol : Declines symbol :=
    .orElse (.bind (.token (plain_operator _))) (.map (.token (plain_operator _)))
  exact .orElse (.of_declines declines_macroCall) (.orElse (.of_declines declines_name)
    (.orElse (.of_declines declines_number)
    (.orElse (.of_declines (.bind (.token (plain_kind (by decide)))))
    (.orElse (leafOf (by decide)) (.orElse (.of_declines boolean) (.orElse (leafOf (by decide))
    (.orElse (.of_declines (.bind (.token (plain_operator _)))) (.orElse (.of_declines symbol)
    (.orElse (.of_declines (.bind (.token (plain_operator _)))) (.orElse paren
    (.orElse (.construct constructs_bracket)
    (.orElse (.of_declines (.bind (.token (plain_punctuation (by decide)))))
    (.orElse heads_blockConstruct (.of_declines declines_operatorValue))))))))))))))

/-- The first operand stays a part of what is built around it. -/
theorem hasErrors_foldl {α : Type} {f : Node → α → Node}
    (keeps : ∀ node a, (f node a).hasErrors = false → node.hasErrors = false) {items : List α}
    {first : Node} (clean : (items.foldl f first).hasErrors = false) :
    first.hasErrors = false := by
  induction items generalizing first with
  | nil => exact clean
  | cons a items ih => exact keeps first a (ih clean)

theorem hasErrors_apply {base : Node} {suffix : Suffix}
    (clean : (suffix.apply base).hasErrors = false) : base.hasErrors = false := by
  cases suffix with
  | call | broadcast | field => exact Node.hasErrors_wrap clean (by simp)
  | index | curly | adjoint | splat => exact Node.hasErrors_child clean (by simp [Suffix.apply])

theorem hasErrors_foldBinary {first : Node} {rest : List (Token × Node)}
    (clean : (foldBinary first rest).hasErrors = false) : first.hasErrors = false := by
  refine hasErrors_foldl (fun left operand clean => ?_) clean
  exact Node.hasErrors_wrap clean (by simp)

theorem hasErrors_combine {level : Level} {first : Node} {rest : List (Token × Node)}
    (clean : (level.combine first rest).hasErrors = false) : first.hasErrors = false := by
  unfold Level.combine at clean
  split at clean
  · exact Node.hasErrors_wrap clean (by simp)
  · exact hasErrors_foldBinary clean

theorem hasErrors_maybeAssigned {left : Node} {right : Option (Token × Node)}
    (clean : (maybeAssigned left right).hasErrors = false) : left.hasErrors = false := by
  cases right with
  | none => exact clean
  | some right => exact Node.hasErrors_wrap clean (by simp)

theorem heads_chain (h : Heads (rule Row.unary)) (levels : List Level) :
    Heads (chain levels) := by
  induction levels with
  | nil => exact h
  | cons level _ ih => exact ih.extend fun _ _ => hasErrors_combine

theorem heads_openTuple (h : Heads (rule Row.arrow)) : Heads openTuple := by
  refine h.bind fun first chart node rest found clean => ?_
  obtain ⟨others, _, _, found⟩ := bind_eq_some.mp found
  obtain ⟨trailing, _, _, found⟩ := bind_eq_some.mp found
  obtain ⟨rfl, _⟩ := pure_eq_some.mp found
  cases trailing with
  | some t => exact Node.hasErrors_child clean (by simp [Node.wrap])
  | none =>
    simp only at clean
    split at clean
    · exact clean
    · exact Node.hasErrors_wrap clean (by simp)

theorem heads_keywordStatement : Heads keywordStatement := by
  have other : ∀ {w : Keyword} {f : Token → Parser Node}, .keyword w ∉ Token.Kind.openers →
      Heads (keyword w >>= f) :=
    fun plain => .of_declines (.bind (.token (plain_keyword plain)))
  have jump : ∀ {w : Keyword} {f : Token → Node}, .keyword w ∉ Token.Kind.openers →
      Heads (f <$> keyword w) :=
    fun plain => .of_declines (.map (.token (plain_keyword plain)))
  have imports : Heads importStatement :=
    .of_declines (.bind (.orElse (.token (plain_keyword (by decide)))
      (.token (plain_keyword (by decide)))))
  have modules : Heads moduleDefinition := by
    apply Heads.orElse
    all_goals exact .construct (constructs_word fun t ht => by simp only [construct?, ht]; rfl)
  refine .orElse (.construct constructs_structDefinition) (.orElse (other (by decide))
    (.orElse ?_ (.orElse modules (.orElse ?_ (.orElse imports (.orElse (other (by decide))
    (.orElse (other (by decide)) (.orElse (other (by decide)) (.orElse (other (by decide))
    (.orElse (other (by decide)) (.orElse (jump (by decide)) (jump (by decide)))))))))))))
  all_goals exact .construct (constructs_word fun t ht => by simp only [construct?, ht]; rfl)

/-- Whatever rule starts at a construct, it has read the construct first. -/
theorem heads_rules : EachRule fun answer => Heads (rule answer) := by
  have run := fun {ts} (ordered : Ordered ts) => rulesRun_ofTokens ordered
  have paren : Heads (rule Row.paren) :=
    .rule (.of_declines declines_paren) fun _ ordered => (run ordered).paren
  have primary : Heads (rule Row.primary) := by
    refine .rule (heads_atom.extend fun base suffixes clean => ?_) fun _ ordered =>
      (run ordered).primary
    exact hasErrors_foldl (fun _ _ => hasErrors_apply) clean
  have typed : Heads (rule Row.typed) := by
    refine .rule (primary.extend fun value types clean => ?_) fun _ ordered => (run ordered).typed
    refine hasErrors_foldl (fun node type clean => ?_) clean
    exact Node.hasErrors_wrap clean (by simp)
  have unary : Heads (rule Row.unary) := by
    refine .rule (.orElse ?_ (.orElse ?_ ?_)) fun _ ordered => (run ordered).unary
    · exact .of_declines (.bind (.token (plain_among _)))
    · exact .of_declines (.bind (.token (plain_operator _)))
    · exact typed.extend fun _ _ => hasErrors_foldBinary
  have ternary : Heads (rule Row.ternary) := by
    refine .rule ((heads_chain unary _).extend fun condition branches clean => ?_)
      fun _ ordered => (run ordered).ternary
    cases branches with
    | none => exact clean
    | some branches => exact Node.hasErrors_wrap clean (by simp)
  have pair : Heads (rule Row.pair) :=
    .rule (ternary.extend fun _ _ => hasErrors_foldBinary) fun _ ordered => (run ordered).pair
  have whereExpression : Heads (rule Row.whereExpression) := by
    refine .rule (pair.extend fun inner clauses clean => ?_)
      fun _ ordered => (run ordered).whereExpression
    split at clean
    · exact clean
    · exact Node.hasErrors_wrap clean (by simp)
  have arrow : Heads (rule Row.arrow) := by
    refine .rule (whereExpression.extend fun parameters body clean => ?_)
      fun _ ordered => (run ordered).arrow
    cases body with
    | none => exact clean
    | some body => exact Node.hasErrors_wrap clean (by simp)
  have expression : Heads (rule Row.expression) :=
    .rule (arrow.extend fun _ _ => hasErrors_maybeAssigned) fun _ ordered =>
      (run ordered).expression
  have assignment : Heads (rule Row.assignment) :=
    .rule ((heads_openTuple arrow).extend fun _ _ => hasErrors_maybeAssigned) fun _ ordered =>
      (run ordered).assignment
  have statement : Heads (rule Row.statement) :=
    .rule (heads_keywordStatement.orElse assignment) fun _ ordered => (run ordered).statement
  exact ⟨paren, primary, typed, unary, ternary, pair, whereExpression, arrow, expression,
    assignment, statement⟩

end CellBindings
