import CellBindings.Proofs.ParserStops
import CellBindings.Proofs.SpelledRules

/-!
The answers in a chart. A row keeps what each rule has found from a row that knew the tighter rules
only. Since every rule takes a token before it asks for a looser one, to ask a rule in the chart of
a token list is the same as to run it there. No rule starts at a line break or at a word that ends
a block, so there, as at the end of the chart, all rules fail.
-/

namespace CellBindings

open CellBindings.Parser Grammar

theorem Parser.option_apply {α : Type} (p : Parser α) (chart : Chart) :
    option p chart = ((p chart).map fun result => (some result.1, result.2)).or
      (some (none, chart)) := by
  unfold option
  rw [orElse_apply]
  change ((p >>= fun a => pure (some a)) chart).or _ = _
  rw [bind_apply]
  cases p chart with
  | none => rfl
  | some result => rfl

def Token.Kind.stops : List Token.Kind :=
  [.newline, .keyword .endKw, .keyword .elseKw, .keyword .elseifKw, .keyword .catchKw,
    .keyword .finallyKw]

def Startable (accepts : Token → Bool) : Prop :=
  ∀ t, t.kind ∈ Token.Kind.stops → accepts t = false

section Startable

theorem startable_of_kind {accepts : Token → Bool} {k : Token.Kind}
    (only : ∀ t, accepts t = true → t.kind = k) (start : k ∉ Token.Kind.stops) :
    Startable accepts := by
  intro t stop
  cases accepted : accepts t with
  | false => rfl
  | true =>
    rw [only t accepted] at stop
    exact absurd stop start

theorem startable_kind {k : Token.Kind} (start : k ∉ Token.Kind.stops) :
    Startable fun t => t.kind == k :=
  startable_of_kind (by simp) start

theorem startable_keyword {word : Keyword} (start : .keyword word ∉ Token.Kind.stops) :
    Startable fun t => t.isKeyword word :=
  startable_of_kind (by simp [Token.isKeyword]) start

theorem startable_operator (spelling : Text) : Startable fun t => t.isOperator spelling := by
  apply @startable_of_kind _ .operator
  · simp +contextual [Token.isOperator]
  · decide

theorem startable_punctuation (c : Char) : Startable fun t => t.isPunctuation c := by
  apply @startable_of_kind _ .punctuation
  · simp +contextual [Token.isPunctuation]
  · decide

theorem startable_among (spellings : List Text) : Startable (isAmong spellings) := by
  apply @startable_of_kind _ .operator
  · simp +contextual [isAmong]
  · decide

end Startable

def Same {α : Type} (here there : Chart) (p : Parser α) : Prop := p here = p there

namespace Same

variable {α β : Type} {here there : Chart} {p q : Parser α}

theorem bind (h : Same here there p) (f : α → Parser β) : Same here there (p >>= f) := by
  unfold Same at h ⊢
  rw [bind_apply, bind_apply, h]

theorem map (h : Same here there p) (f : α → β) : Same here there (f <$> p) :=
  h.bind _

theorem orElse (hp : Same here there p) (hq : Same here there q) : Same here there (p <|> q) := by
  unfold Same at hp hq ⊢
  rw [orElse_apply, orElse_apply, hp, hq]

end Same

def SameStart (here there : Chart) : Prop :=
  ∀ accepts, Startable accepts → Same here there (token accepts)

namespace SameStart

variable {β : Type} {here there : Chart} {accepts : Token → Bool}

theorem bind (same : SameStart here there) (start : Startable accepts) {f : Token → Parser β} :
    Same here there (token accepts >>= f) :=
  (same accepts start).bind f

theorem map (same : SameStart here there) (start : Startable accepts) {f : Token → β} :
    Same here there (f <$> token accepts) :=
  (same accepts start).map f

/-- A token that may be missing before one that has to be there. -/
theorem optional (same : SameStart here there) {first second : Token → Bool}
    (start : Startable first) (start' : Startable second) {f : Option Token → Token → Parser β} :
    Same here there (do
      let a ← option (token first)
      let b ← token second
      f a b) := by
  have front : token first here = token first there := same first start
  have back : token second here = token second there := same second start'
  unfold Same
  rw [bind_apply, bind_apply, option_apply, option_apply, front]
  cases token first there with
  | none =>
    change (token second >>= _) here = (token second >>= _) there
    rw [bind_apply, bind_apply, back]
  | some result => rfl

theorem paren (same : SameStart here there) : Same here there paren := by
  have opening := startable_punctuation '('
  exact .orElse (same.bind opening) (.orElse (same.bind opening) (.orElse (same.bind opening)
    (.orElse (same.bind opening) (.orElse (same.bind opening) (same.bind opening)))))

theorem bracket (same : SameStart here there) : Same here there bracket := by
  have opening := startable_punctuation '['
  exact .orElse (same.bind opening) (.orElse (same.bind opening) (.orElse (same.bind opening)
    (same.bind opening)))

theorem name (same : SameStart here there) : Same here there name :=
  same.map (startable_kind (by decide))

theorem macroCall (same : SameStart here there) : Same here there macroCall := by
  have callee : Same here there macroCallee :=
    .orElse (same.name.bind _) (same.map (startable_kind (by decide)))
  exact .orElse (callee.bind _) (callee.bind _)

theorem number (same : SameStart here there) : Same here there number := by
  refine .bind (.orElse ?_ ?_) _
  · exact same.map (startable_kind (by decide))
  · exact same.map (startable_kind (by decide))

theorem blockConstruct (same : SameStart here there) : Same here there blockConstruct := by
  have word := fun {w : Keyword} (start : .keyword w ∉ Token.Kind.stops)
      {f : Token → Parser Node} => @same.bind _ _ _ _ (startable_keyword start) f
  exact .orElse (word (by decide)) (.orElse (word (by decide)) (.orElse (word (by decide))
    (.orElse (word (by decide)) (.orElse (word (by decide)) (.orElse (word (by decide))
    (.orElse (word (by decide)) (word (by decide))))))))

theorem atom (same : SameStart here there) (tighter : Same here there (rule Row.paren)) :
    Same here there atom := by
  have boolean : Same here there (keyword .trueKw <|> keyword .falseKw) :=
    .orElse (same _ (startable_keyword (by decide))) (same _ (startable_keyword (by decide)))
  have symbol : Same here there symbol :=
    .orElse (same.bind (startable_operator [':'])) (same.map (startable_operator [':']))
  have operatorValue : Same here there operatorValue := by
    refine same.bind (@startable_of_kind _ .operator ?_ (by decide))
    simp +contextual
  exact .orElse same.macroCall (.orElse same.name (.orElse same.number
    (.orElse (same.bind (startable_kind (by decide)))
    (.orElse (same.map (startable_kind (by decide))) (.orElse (boolean.map _)
    (.orElse (same.map (startable_kind (by decide))) (.orElse (same.bind (startable_operator [':']))
    (.orElse symbol (.orElse (same.bind (startable_operator ['$'])) (.orElse tighter
    (.orElse same.bracket (.orElse (same.bind (startable_punctuation '\x7b'))
    (.orElse same.blockConstruct operatorValue)))))))))))))

theorem unary (same : SameStart here there) (tighter : Same here there (rule Row.typed)) :
    Same here there unary :=
  .orElse (same.bind (startable_among _)) (.orElse (same.bind (startable_operator [':', ':']))
    (.bind tighter _))

theorem keywordStatement (same : SameStart here there) : Same here there keywordStatement := by
  have word := fun {w : Keyword} (start : .keyword w ∉ Token.Kind.stops)
      {f : Token → Parser Node} => @same.bind _ _ _ _ (startable_keyword start) f
  have jump := fun {w : Keyword} (start : .keyword w ∉ Token.Kind.stops)
      {f : Token → Node} => @same.map _ _ _ _ (startable_keyword start) f
  have structs : Same here there structDefinition :=
    same.optional (startable_keyword (by decide)) (startable_keyword (by decide))
  have imports : Same here there importStatement := by
    refine .bind (.orElse ?_ ?_) _
    · exact same _ (startable_keyword (by decide))
    · exact same _ (startable_keyword (by decide))
  have modules : Same here there moduleDefinition :=
    .orElse (word (by decide)) (word (by decide))
  exact .orElse structs (.orElse (word (by decide)) (.orElse (word (by decide)) (.orElse modules
    (.orElse (word (by decide)) (.orElse imports (.orElse (word (by decide))
    (.orElse (word (by decide)) (.orElse (word (by decide)) (.orElse (word (by decide))
    (.orElse (word (by decide)) (.orElse (jump (by decide)) (jump (by decide)))))))))))))

end SameStart

theorem same_chain {here there : Chart} (tighter : Same here there (rule Row.unary))
    (levels : List Level) : Same here there (chain levels) := by
  induction levels with
  | nil => exact tighter
  | cons level _ ih => exact ih.bind _

theorem sameStart_of_token {row row' : Row} (same : row.token = row'.token) (rest : Chart) :
    SameStart (row :: rest) (row' :: rest) := by
  intro accepts _
  simp only [Same, token, same]

theorem sameStart_of_stop {row : Row} (stop : row.token.kind ∈ Token.Kind.stops) (rest : Chart) :
    SameStart (row :: rest) [] := by
  intro accepts start
  simp [Same, token, start row.token stop]

/-- An answer that two rows share, if it takes a token. -/
theorem same_answer {answer : Row → Answer} {row row' : Row} {rest : Chart}
    (same : answer row = answer row')
    (takes : ∀ node count, (answer row).get = some (node, count) → 0 < count) :
    Same (row :: rest) (row' :: rest) (rule answer) := by
  unfold Same rule
  simp only [← same]
  cases found : (answer row).get with
  | none => rfl
  | some result =>
    obtain ⟨node, count⟩ := result
    obtain ⟨before, rfl⟩ := Nat.exists_eq_succ_of_ne_zero (Nat.ne_of_gt (takes node count found))
    rfl

theorem Row.Sound.takes {rest : Chart} {row : Row} (sound : row.Sound Spelled rest)
    {answer : Answer} (known : answer ∈ row.answers) (node : Node) (count : Nat)
    (found : answer.get = some (node, count)) : 0 < count := by
  obtain ⟨_, spelled⟩ := sound answer known node count found
  refine Nat.pos_of_ne_zero fun none => spelled.built.ne_nil ?_
  simp [none]

section Known

variable {answer : Row → Answer} {p : Parser Node} {known row : Row} {rest : Chart}

/-- An answer found from a row that knew less, where the parser finds the same. -/
theorem rule_eq_run (found : answer row = Parser.answer p (known :: rest))
    (reads : Yields p Spelled) (meets : Chart.Meets Spelled (known :: rest))
    (ordered : Ordered (Chart.tokens (known :: rest)))
    (same : Same (known :: rest) (row :: rest) p) :
    rule answer (row :: rest) = p (row :: rest) := by
  unfold Same at same
  rw [rule, found, ← same]
  change ((p (known :: rest)).map _).map _ = _
  cases run : p (known :: rest) with
  | none => rfl
  | some result =>
    obtain ⟨node, last⟩ := result
    obtain ⟨taken, split, spelled⟩ := reads _ meets ordered node last run
    cases taken with
    | nil => exact absurd rfl spelled.built.ne_nil
    | cons first taken =>
      have behind : rest = taken ++ last := (List.cons.inj split).2
      have count : (known :: rest).length - last.length = taken.length + 1 := by
        simp only [behind, List.length_cons, List.length_append]
        omega
      simp only [Option.map_some, count, List.drop_succ_cons]
      rw [behind, List.drop_left]

theorem rule_eq_of_known (sound : row.Sound Spelled rest) (hc : Chart.Meets Spelled rest)
    (ho : Ordered (row.token :: Chart.tokens rest))
    (found : answer row = Parser.answer p (known :: rest)) (token : known.token = row.token)
    (reads : Yields p Spelled)
    (fewer : ∀ a ∈ known.answers, a = Answer.never ∨ a ∈ row.answers)
    (same : SameStart (known :: rest) (row :: rest) → Same (known :: rest) (row :: rest) p) :
    rule answer (row :: rest) = p (row :: rest) := by
  have known_sound : known.Sound Spelled rest := by
    intro a ha
    rw [Chart.tokens_cons, token, ← Chart.tokens_cons]
    rcases fewer a ha with rfl | ha
    · exact never_meets _
    · exact sound a ha
  exact rule_eq_run found reads ⟨known_sound, hc⟩ (by rwa [Chart.tokens_cons, token])
    (same (sameStart_of_token token rest))

end Known

/-- To ask a rule at the start of the chart is to run it there. -/
structure RulesRun (chart : Chart) : Prop where
  paren : rule Row.paren chart = Grammar.paren chart
  primary : rule Row.primary chart = Grammar.primary chart
  typed : rule Row.typed chart = Grammar.typed chart
  unary : rule Row.unary chart = Grammar.unary chart
  ternary : rule Row.ternary chart = Grammar.ternary chart
  pair : rule Row.pair chart = Grammar.pair chart
  whereExpression : rule Row.whereExpression chart = Grammar.whereExpression chart
  arrow : rule Row.arrow chart = Grammar.arrow chart
  expression : rule Row.expression chart = Grammar.expression chart
  assignment : rule Row.assignment chart = Grammar.assignmentExpression chart
  statement : rule Row.statement chart = Grammar.statement chart

theorem rulesRun_build {t : Token} {rest : Chart} (hc : Chart.Meets Spelled rest)
    (ho : Ordered (t :: Chart.tokens rest)) : RulesRun (Row.build t rest :: rest) := by
  have sound := rules_spelled.build hc ho
  have run := fun {answer p known} => @rule_eq_of_known answer p known _ rest sound hc ho
  -- where a rule starts it asks at most the one before it
  have tighter : ∀ {answer : Row → Answer} {known : Row},
      answer (Row.build t rest) ∈ (Row.build t rest).answers →
      answer known = answer (Row.build t rest) →
        Same (known :: rest) (Row.build t rest :: rest) (rule answer) := by
    intro answer known mem same
    exact same_answer same (by rw [same]; exact sound.takes mem)
  constructor
  · refine run rfl rfl yields_paren (by simp [Row.answers, Row.bare]) fun start => ?_
    exact start.paren
  · refine run rfl rfl yields_primary (by simp [Row.answers, Row.bare, Row.build]) fun start => ?_
    refine Same.bind (start.atom ?_) _
    exact tighter (by simp [Row.answers]) rfl
  · refine run rfl rfl yields_typed (by simp [Row.answers, Row.bare, Row.build]) fun _ => ?_
    refine Same.bind ?_ _
    exact tighter (by simp [Row.answers]) rfl
  · refine run rfl rfl yields_unary (by simp [Row.answers, Row.bare, Row.build]) fun start => ?_
    refine start.unary ?_
    exact tighter (by simp [Row.answers]) rfl
  · refine run rfl rfl yields_ternary (by simp [Row.answers, Row.bare, Row.build]) fun _ => ?_
    refine Same.bind (same_chain ?_ _) _
    exact tighter (by simp [Row.answers]) rfl
  · refine run rfl rfl yields_pair (by simp [Row.answers, Row.bare, Row.build]) fun _ => ?_
    refine Same.bind ?_ _
    exact tighter (by simp [Row.answers]) rfl
  · refine run rfl rfl yields_whereExpression (by simp [Row.answers, Row.bare, Row.build])
      fun _ => ?_
    refine Same.bind ?_ _
    exact tighter (by simp [Row.answers]) rfl
  · refine run rfl rfl yields_arrow (by simp [Row.answers, Row.bare, Row.build]) fun _ => ?_
    refine Same.bind ?_ _
    exact tighter (by simp [Row.answers]) rfl
  · refine run rfl rfl yields_expression (by simp [Row.answers, Row.bare, Row.build]) fun _ => ?_
    refine Same.bind ?_ _
    exact tighter (by simp [Row.answers]) rfl
  · refine run rfl rfl yields_assignmentExpression (by simp [Row.answers, Row.bare, Row.build])
      fun _ => ?_
    refine Same.bind (Same.bind ?_ _) _
    exact tighter (by simp [Row.answers]) rfl
  · refine run rfl rfl yields_statement (by simp [Row.answers, Row.bare, Row.build]) fun start => ?_
    refine Same.orElse start.keywordStatement ?_
    exact tighter (by simp [Row.answers]) rfl

theorem rulesRun_ofTokens {ts : List Token} (ho : Ordered ts) : RulesRun (Chart.ofTokens ts) := by
  cases ts with
  | nil => constructor <;> rfl
  | cons t ts =>
    rw [ofTokens_cons]
    exact rulesRun_build (ofTokens_meets ho.tail) (by rwa [tokens_ofTokens])

structure EachRule (P : (Row → Answer) → Prop) : Prop where
  paren : P Row.paren
  primary : P Row.primary
  typed : P Row.typed
  unary : P Row.unary
  ternary : P Row.ternary
  pair : P Row.pair
  whereExpression : P Row.whereExpression
  arrow : P Row.arrow
  expression : P Row.expression
  assignment : P Row.assignment
  statement : P Row.statement

/-- No rule finds anything where every token that could start one is missing. -/
theorem RulesRun.fail {chart : Chart} (run : RulesRun chart) (same : SameStart chart []) :
    EachRule fun answer => rule answer chart = none := by
  have paren : Same chart [] (rule Row.paren) := run.paren.trans same.paren
  have primary : Same chart [] (rule Row.primary) := run.primary.trans ((same.atom paren).bind _)
  have typed : Same chart [] (rule Row.typed) := run.typed.trans (primary.bind _)
  have unary : Same chart [] (rule Row.unary) := run.unary.trans (same.unary typed)
  have ternary : Same chart [] (rule Row.ternary) :=
    run.ternary.trans ((same_chain unary _).bind _)
  have pair : Same chart [] (rule Row.pair) := run.pair.trans (ternary.bind _)
  have whereExpression : Same chart [] (rule Row.whereExpression) :=
    run.whereExpression.trans (pair.bind _)
  have arrow : Same chart [] (rule Row.arrow) := run.arrow.trans (whereExpression.bind _)
  have expression : Same chart [] (rule Row.expression) := run.expression.trans (arrow.bind _)
  have assignment : Same chart [] (rule Row.assignment) :=
    run.assignment.trans (Same.bind (arrow.bind _) _)
  have statement : Same chart [] (rule Row.statement) :=
    run.statement.trans (same.keywordStatement.orElse assignment)
  exact ⟨paren, primary, typed, unary, ternary, pair, whereExpression, arrow, expression,
    assignment, statement⟩

/-- At the end of the tokens and before one at which no rule starts, all rules fail. -/
theorem rules_fail {ts : List Token} (ho : Ordered ts)
    (stop : ∀ t ∈ ts.head?, t.kind ∈ Token.Kind.stops) :
    EachRule fun answer => rule answer (Chart.ofTokens ts) = none := by
  cases ts with
  | nil => constructor <;> rfl
  | cons t ts =>
    refine (rulesRun_ofTokens ho).fail ?_
    exact sameStart_of_stop (stop t rfl) (Chart.ofTokens ts)

end CellBindings
