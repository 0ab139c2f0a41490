import CellBindings.Proofs.ParserSeams
import CellBindings.Proofs.SpacedWords

/-!
The chart of the words of a formula. Formulas have no words for most of what the grammar looks for,
so there all its other alternatives fail, and each rule finds what the next tighter one does unless
an operator of its own follows.
-/

namespace CellBindings

open CellBindings.Parser Grammar

def Word.chart (o : Nat) (words : List Word) : Chart := Chart.ofTokens (Word.tokens o words)

section Parsers

variable {α β : Type} {p q : Parser α} {f : α → Parser β} {chart rest : Chart} {a : α}

theorem bind_of_some (h : p chart = some (a, rest)) : (p >>= f) chart = f a rest := by
  rw [bind_apply, h]
  rfl

theorem bind_of_none (h : p chart = none) : (p >>= f) chart = none := by
  rw [bind_apply, h]
  rfl

theorem orElse_of_some (h : p chart = some (a, rest)) : (p <|> q) chart = some (a, rest) := by
  rw [orElse_apply, h]
  rfl

theorem orElse_of_none (h : p chart = none) : (p <|> q) chart = q chart := by
  rw [orElse_apply, h]
  rfl

theorem option_of_some (h : p chart = some (a, rest)) : option p chart = some (some a, rest) := by
  rw [option_apply, h]
  rfl

theorem option_of_none (h : p chart = none) : option p chart = some (none, chart) := by
  rw [option_apply, h]
  rfl

/-- The parser is repeated until it fails, and takes something each time. -/
inductive Repeats (p : Parser α) : Chart → List α → Chart → Prop where
  | stop {chart : Chart} (fails : p chart = none) : Repeats p chart [] chart
  | more {chart mid rest : Chart} {a : α} {items : List α} (found : p chart = some (a, mid))
      (shorter : mid.length < chart.length) (later : Repeats p mid items rest) :
      Repeats p chart (a :: items) rest

theorem Repeats.many {items : List α} (h : Repeats p chart items rest) :
    Parser.many p chart = some (items, rest) := by
  have bounded (bound : Chart) (enough : chart.length ≤ bound.length) :
      manyWithin p bound chart = (items, rest) := by
    induction h generalizing bound with
    | stop fails => exact manyWithin_of_none fails bound
    | more found shorter _ ih =>
      cases bound with
      | nil =>
        simp only [List.length_nil] at enough
        omega
      | cons row bound =>
        simp only [List.length_cons] at enough
        simp only [manyWithin, found, ih bound (by omega)]
  exact congrArg some (bounded chart (Nat.le_refl _))

theorem many_of_none (h : p chart = none) : Parser.many p chart = some ([], chart) :=
  (Repeats.stop h).many

end Parsers

def Unheard (accepts : Token → Bool) : Prop :=
  ∀ word : Word, word.Usual → ∀ o, accepts (word.token o) = false

section Unheard

theorem unheard_operator {spelling : Text} (unknown : spelling ∉ Formula.operators) :
    Unheard fun t => t.isOperator spelling := by
  intro word usual o
  cases usual with
  | sign known =>
    have other : ∀ op ∈ Formula.operators, op ≠ spelling := fun op mem same => unknown (same ▸ mem)
    simp [Word.token, Word.sign, Token.isOperator, other _ known]
  | name | isIn | isA | opening | closing => rfl

theorem unheard_keyword {keyword : Keyword} (other : keyword ≠ .inKw ∧ keyword ≠ .isaKw) :
    Unheard fun t => t.isKeyword keyword := by
  intro word usual o
  cases usual with
  | isIn => simp [Word.token, Word.isIn, Token.isKeyword, Ne.symm other.1]
  | isA => simp [Word.token, Word.isA, Token.isKeyword, Ne.symm other.2]
  | name | sign | opening | closing => rfl

theorem unheard_punctuation {c : Char} (other : c ≠ '(' ∧ c ≠ ')') :
    Unheard fun t => t.isPunctuation c := by
  intro word usual o
  cases usual with
  | opening => simp [Word.token, Word.opening, Token.isPunctuation, Ne.symm other.1]
  | closing => simp [Word.token, Word.closing, Token.isPunctuation, Ne.symm other.2]
  | name | sign | isIn | isA => rfl

/-- A blank stands before each word. -/
theorem unheard_tight (c : Char) : Unheard fun t => t.isPunctuation c && !t.spaceBefore := by
  intro word _ o
  exact Bool.and_false _

theorem unheard_kind {k : Token.Kind}
    (other : k ∉ [.identifier, .operator, .keyword .inKw, .keyword .isaKw, .punctuation]) :
    Unheard (·.kind == k) := by
  intro word usual o
  have among : word.kind ∈
      [.identifier, .operator, .keyword .inKw, .keyword .isaKw, .punctuation] := by
    cases usual <;>
      simp [Word.name, Word.sign, Word.isIn, Word.isA, Word.opening, Word.closing]
  exact beq_eq_false_iff_ne.mpr fun same => other (same ▸ among)

theorem unheard_assignment : Unheard isAssignment := by
  have all : Formula.operators.all (fun op => !isAssignment ((Word.sign op).token 0)) = true := by
    decide +kernel
  intro word usual o
  cases usual with
  | sign known =>
    have refused := List.all_eq_true.mp all _ known
    rwa [Bool.not_eq_true'] at refused
  | name | isIn | isA | opening | closing => rfl

end Unheard

namespace Word

variable {o : Nat} {words : List Word} {accepts : Token → Bool} {β : Type}

theorem length_chart (o : Nat) (words : List Word) : (chart o words).length = words.length := by
  induction words generalizing o with
  | nil => rfl
  | cons word words ih => exact congrArg Nat.succ (ih _)

theorem mem_chart (usual : ∀ word ∈ words, word.Usual) {row : Row} (mem : row ∈ chart o words) :
    ∃ word : Word, word.Usual ∧ ∃ place, row.token = word.token place := by
  induction words generalizing o with
  | nil => cases mem
  | cons word words ih =>
    rcases List.mem_cons.mp mem with rfl | mem
    · exact ⟨word, usual word List.mem_cons_self, o, rfl⟩
    · exact ih (fun other later => usual other (List.mem_cons_of_mem word later)) mem

/-- Behind any part of a formula, what formulas do not have is not found. -/
theorem refused_behind (h : Unheard accepts) (usual : ∀ word ∈ words, word.Usual) {rest : Chart}
    (behind : rest <:+ chart o words) : Parser.token accepts rest = none := by
  refine token_eq_none.mpr fun row mem => ?_
  obtain ⟨word, known, place, same⟩ := mem_chart usual (behind.mem (List.mem_of_head? mem))
  rw [same]
  exact h word known place

theorem refused (h : Unheard accepts) (usual : ∀ word ∈ words, word.Usual) :
    Parser.token accepts (chart o words) = none :=
  refused_behind h usual List.suffix_rfl

theorem bind_refused (h : Unheard accepts) (usual : ∀ word ∈ words, word.Usual)
    (f : Token → Parser β) : (Parser.token accepts >>= f) (chart o words) = none :=
  bind_of_none (refused h usual)

theorem Usual.text_ne_nil {word : Word} (usual : word.Usual) : word.text ≠ [] := by
  cases usual with
  | name named =>
    obtain ⟨c, cs, rfl, _⟩ := named
    exact List.cons_ne_nil c cs
  | @sign op known =>
    cases op with
    | nil => cases List.all_eq_true.mp operators_found [] known
    | cons c cs => exact List.cons_ne_nil c cs
  | isIn | isA | opening | closing => exact List.cons_ne_nil _ _

theorem ordered_tokens (usual : ∀ word ∈ words, word.Usual) (o : Nat) :
    Ordered (tokens o words) ∧ ∀ t ∈ tokens o words, o ≤ t.span.start := by
  induction words generalizing o with
  | nil => exact ⟨⟨by simp [tokens], .nil⟩, by simp [tokens]⟩
  | cons word words ih =>
    have some : 0 < Text.byteSize word.text :=
      Text.byteSize_pos (usual word List.mem_cons_self).text_ne_nil
    obtain ⟨ordered, later⟩ :=
      ih (fun other mem => usual other (List.mem_cons_of_mem word mem)) (o + word.text.byteSize + 1)
    refine ⟨⟨?_, .cons ?_ ordered.apart⟩, ?_⟩
    · intro t mem
      rcases List.mem_cons.mp mem with rfl | mem
      · simpa [token] using some
      · exact ordered.nonempty t mem
    · intro t mem
      have := later t mem
      simp only [token]
      omega
    · intro t mem
      rcases List.mem_cons.mp mem with rfl | mem
      · exact Nat.le_refl o
      · have := later t mem
        omega

/-- To ask a rule in the chart is to run it. -/
theorem rules_run (usual : ∀ word ∈ words, word.Usual) (o : Nat) : RulesRun (chart o words) :=
  rulesRun_ofTokens (ordered_tokens usual o).1

end Word

section Rules

variable {o place : Nat} {words rest : List Word} {node : Node}

theorem name_suffix {chart after : Chart} (h : Grammar.name chart = some (node, after)) :
    after <:+ chart := by
  obtain ⟨t, mid, found, h⟩ := bind_eq_some.mp h
  obtain ⟨_, rfl⟩ := pure_eq_some.mp h
  cases chart with
  | nil => cases found
  | cons row chart =>
    simp only [kind, token] at found
    split at found
    · cases found
      exact List.suffix_cons row _
    · cases found

theorem rule_suffix {answer : Row → Answer} {chart after : Chart}
    (h : rule answer chart = some (node, after)) : after <:+ chart := by
  cases chart with
  | nil => cases h
  | cons row chart =>
    obtain ⟨found, _, same⟩ := Option.map_eq_some_iff.mp h
    rw [← (Prod.mk.inj same).2]
    exact List.drop_suffix _ _

variable (usual : ∀ word ∈ words, word.Usual)

include usual

theorem macroCall_fails : macroCall (Word.chart o words) = none := by
  have callee : macroCallee (Word.chart o words) = none := by
    refine orElse_eq_none.mpr ⟨?_, Word.bind_refused (unheard_kind (by decide)) usual _⟩
    refine bind_eq_none.mpr ((Option.eq_none_or_eq_some _).imp_right ?_)
    rintro ⟨⟨base, after⟩, found⟩
    have point := Word.refused_behind (@unheard_operator ['.'] (by decide)) usual
      (name_suffix found)
    exact ⟨base, after, found, (bind_of_some (many_of_none (bind_of_none point))).trans
      (bind_of_none point)⟩
  exact orElse_eq_none.mpr ⟨bind_of_none callee, bind_of_none callee⟩

theorem suffix_fails : suffix (Word.chart o words) = none := by
  have point := @unheard_operator ['.'] (by decide)
  simp only [suffix, orElse_eq_none]
  refine ⟨?_, ?_, ?_, ?_, ?_, ?_, ?_⟩
  · exact bind_of_none (Word.bind_refused (unheard_tight '(') usual _)
  · exact Word.bind_refused point usual _
  · exact Word.bind_refused point usual _
  · exact Word.bind_refused (unheard_tight '[') usual _
  · exact Word.bind_refused (unheard_tight '{') usual _
  · exact Word.bind_refused (unheard_operator (by decide)) usual _
  · exact Word.bind_refused (unheard_operator (by decide)) usual _

theorem keywordStatement_fails : keywordStatement (Word.chart o words) = none := by
  have word {keyword : Keyword} (other : keyword ≠ .inKw ∧ keyword ≠ .isaKw) {β : Type}
      (f : Token → Parser β) : (Parser.keyword keyword >>= f) (Word.chart o words) = none :=
    Word.bind_refused (unheard_keyword other) usual f
  simp only [keywordStatement, moduleDefinition, orElse_eq_none]
  refine ⟨?types, ?_, ?_, ⟨?_, ?_⟩, ?_, ?imports, ?_, ?_, ?_, ?_, ?_, ?_, ?_⟩
  case types =>
    have first : option (keyword .mutableKw) (Word.chart o words) = some (none, _) :=
      option_of_none (Word.refused (unheard_keyword (by decide)) usual)
    exact (bind_of_some first).trans (word (by decide) _)
  case imports =>
    refine bind_of_none (orElse_eq_none.mpr ⟨?_, ?_⟩)
    · exact Word.refused (unheard_keyword (by decide)) usual
    · exact Word.refused (unheard_keyword (by decide)) usual
  all_goals exact word (by decide) _

variable (usual' : ∀ word ∈ rest, word.Usual)

include usual'

/-- No suffix and no type follows an operand. -/
theorem typed_of_atom (found : atom (Word.chart o words) = some (node, Word.chart place rest)) :
    rule Row.typed (Word.chart o words) = some (node, Word.chart place rest) := by
  have run := Word.rules_run usual o
  have primary : rule Row.primary (Word.chart o words) = some (node, Word.chart place rest) := by
    rw [run.primary]
    exact (bind_of_some found).trans (bind_of_some (many_of_none (suffix_fails usual')))
  have colons := Word.refused (o := place) (@unheard_operator [':', ':'] (by decide)) usual'
  rw [run.typed]
  exact (bind_of_some primary).trans (bind_of_some (many_of_none (bind_of_none colons)))

theorem ternary_of_chain
    (found : chain Level.all (Word.chart o words) = some (node, Word.chart place rest)) :
    rule Row.ternary (Word.chart o words) = some (node, Word.chart place rest) := by
  have question := Word.refused (o := place) (@unheard_operator ['?'] (by decide)) usual'
  rw [(Word.rules_run usual o).ternary]
  exact (bind_of_some found).trans (bind_of_some (option_of_none (bind_of_none question)))

theorem arrow_of_pair
    (found : rule Row.pair (Word.chart o words) = some (node, Word.chart place rest)) :
    rule Row.arrow (Word.chart o words) = some (node, Word.chart place rest) := by
  have run := Word.rules_run usual o
  have clause := Word.refused (o := place) (@unheard_keyword .whereKw (by decide)) usual'
  have inner :
      rule Row.whereExpression (Word.chart o words) = some (node, Word.chart place rest) := by
    rw [run.whereExpression]
    exact (bind_of_some found).trans (bind_of_some (many_of_none (bind_of_none clause)))
  have mark := Word.refused (o := place) (@unheard_operator ['-', '>'] (by decide)) usual'
  rw [run.arrow]
  exact (bind_of_some inner).trans (bind_of_some (option_of_none (bind_of_none mark)))

theorem statement_of_arrow
    (found : rule Row.arrow (Word.chart o words) = some (node, Word.chart place rest)) :
    rule Row.statement (Word.chart o words) = some (node, Word.chart place rest) := by
  have run := Word.rules_run usual o
  have comma := Word.refused (o := place) (@unheard_punctuation ',' (by decide)) usual'
  have single : openTuple (Word.chart o words) = some (node, Word.chart place rest) :=
    (bind_of_some found).trans <| (bind_of_some (many_of_none (bind_of_none comma))).trans <|
      bind_of_some (option_of_none comma)
  have sign := Word.refused (o := place) unheard_assignment usual'
  have inner : rule Row.assignment (Word.chart o words) = some (node, Word.chart place rest) := by
    rw [run.assignment]
    exact (bind_of_some single).trans (bind_of_some (option_of_none (bind_of_none sign)))
  rw [run.statement]
  exact (orElse_of_none (keywordStatement_fails usual)).trans inner

omit usual'

theorem unary_of_power {after : Chart} (head : ∀ word ∈ words.head?, word.kind ≠ .operator)
    (found : power (Word.chart o words) = some (node, after)) :
    rule Row.unary (Word.chart o words) = some (node, after) := by
  have sign : token (isAmong unaryOperators) (Word.chart o words) = none := by
    cases words with
    | nil => rfl
    | cons word words =>
      have other : (word.kind == .operator) = false := beq_eq_false_iff_ne.mpr (head word rfl)
      refine token_eq_none.mpr fun row mem => ?_
      cases mem
      simp [Word.token, isAmong, build_token, other]
  rw [(Word.rules_run usual o).unary]
  refine (orElse_of_none (bind_of_none sign)).trans ((orElse_of_none ?_).trans found)
  exact Word.bind_refused (unheard_operator (by decide)) usual _

theorem unary_prefixed {op : Text} {after : Chart} (known : op ∈ unaryOperators)
    (shape : words = .sign op :: rest)
    (found : rule Row.unary (Word.chart (o + Text.byteSize op + 1) rest) = some (node, after)) :
    rule Row.unary (Word.chart o words) =
      some (.wrap .unaryExpression [.leaf .operator ⟨o, o + Text.byteSize op⟩, node], after) := by
  subst shape
  have accepted : isAmong unaryOperators ((Word.sign op).token o) = true := by
    simp [isAmong, Word.token, Word.sign, known]
  have sign : token (isAmong unaryOperators) (Word.chart o (.sign op :: rest)) =
      some ((Word.sign op).token o, Word.chart (o + Text.byteSize op + 1) rest) :=
    if_pos accepted
  rw [(Word.rules_run usual o).unary]
  exact orElse_of_some ((bind_of_some sign).trans (bind_of_some found))

theorem atom_name {text : Text} (shape : words = .name text :: rest) :
    atom (Word.chart o words) = some (.leaf .identifier ⟨o, o + Text.byteSize text⟩,
      Word.chart (o + Text.byteSize text + 1) rest) := by
  subst shape
  exact (orElse_of_none (macroCall_fails usual)).trans (orElse_of_some rfl)

theorem atom_opening {after : Chart} (shape : words = .opening :: rest)
    (found : paren (Word.chart o words) = some (node, after)) :
    atom (Word.chart o words) = some (node, after) := by
  have inner : rule Row.paren (Word.chart o words) = some (node, after) := by
    rw [(Word.rules_run usual o).paren, found]
  subst shape
  unfold atom
  -- no operand but a parenthesis starts with one
  iterate 10 rw [orElse_of_none rfl]
  exact orElse_of_some inner

/-- Without an equals sign, an argument has no label. -/
theorem callItem_of_arrow
    (found : rule Row.arrow (Word.chart o words) = some (node, Word.chart place rest)) :
    callItem (Word.chart o words) = some (node, Word.chart place rest) := by
  refine (orElse_of_none ?_).trans found
  refine bind_eq_none.mpr ((Option.eq_none_or_eq_some _).imp_right ?_)
  rintro ⟨⟨label, after⟩, labelled⟩
  have equals := Word.refused_behind (@unheard_operator ['='] (by decide)) usual
    (rule_suffix labelled)
  exact ⟨label, after, labelled, bind_of_none equals⟩

/-- A parenthesis around an expression is neither empty nor a generator nor a tuple. -/
theorem paren_of_arrow {inner : List Word} (shape : words = .opening :: inner)
    (head : ∀ word ∈ inner.head?, word ≠ .closing) (usual' : ∀ word ∈ rest, word.Usual)
    (found : rule Row.arrow (Word.chart (o + 2) inner) =
      some (node, Word.chart place (.closing :: rest))) :
    paren (Word.chart o words) =
      some (⟨.parenthesizedExpression, ⟨o, place + 1⟩, [node]⟩, Word.chart (place + 2) rest) := by
  subst shape
  have inside : ∀ word ∈ inner, word.Usual :=
    fun word mem => usual word (List.mem_cons_of_mem _ mem)
  have closed : ∀ word ∈ .closing :: rest, word.Usual := by
    intro word mem
    rcases List.mem_cons.mp mem with rfl | mem
    · exact .closing
    · exact usual' word mem
  have opened : punctuation '(' (Word.chart o (.opening :: inner)) =
      some (Word.opening.token o, Word.chart (o + 2) inner) := rfl
  have closes : punctuation ')' (Word.chart place (.closing :: rest)) =
      some (Word.closing.token place, Word.chart (place + 2) rest) := rfl
  have filled : punctuation ')' (Word.chart (o + 2) inner) = none := by
    cases inner with
    | nil => rfl
    | cons word inner =>
      refine token_eq_none.mpr fun row mem => ?_
      cases mem
      have other := head word rfl
      rw [build_token, Token.isPunctuation, Bool.and_eq_false_iff, beq_eq_false_iff_ne,
        beq_eq_false_iff_ne, ← not_and_or]
      rintro ⟨kind, text⟩
      exact other (by cases word; cases kind; cases text; rfl)
  have generator : comprehension .generator (Word.chart (o + 2) inner) = none :=
    (bind_of_some found).trans <| bind_of_none <|
      Word.bind_refused (unheard_keyword (by decide)) closed _
  have single := callItem_of_arrow inside found
  have statement := statement_of_arrow inside closed found
  simp only [paren]
  refine (orElse_of_none ?empty).trans <| (orElse_of_none ?keywords).trans <|
    (orElse_of_none ?generator).trans <| (orElse_of_none ?tuple).trans <| orElse_of_some ?one
  case empty => exact (bind_of_some opened).trans (bind_of_none filled)
  case keywords =>
    exact (bind_of_some opened).trans (Word.bind_refused (unheard_punctuation (by decide)) inside _)
  case generator => exact (bind_of_some opened).trans (bind_of_none generator)
  case tuple =>
    exact (bind_of_some opened).trans <| (bind_of_some single).trans <|
      Word.bind_refused (unheard_punctuation (by decide)) closed _
  case one =>
    exact (bind_of_some opened).trans <| (bind_of_some statement).trans (bind_of_some closes)

end Rules

end CellBindings
