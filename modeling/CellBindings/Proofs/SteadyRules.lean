import CellBindings.Proofs.SteadyConstructs

/-!
Rules at a seam. Behind a token that ends no value a rule asks others where fewer tokens are left,
and where it starts it asks a tighter one. So all rules are steady, by induction on the number of
tokens before the seam. The arguments of a macro stand next to one another, and there it matters
that the tokens are sealed.
-/

namespace CellBindings

open CellBindings.Parser Grammar

/-- What a macro is called by ends in its name. -/
theorem reads_macroCallee :
    Yields macroCallee fun ts _ => ∃ front t, ts = front ++ [t] ∧ t.kind = .macroName := by
  have last : Yields macroName fun ts _ => ∃ t, ts = [t] ∧ t.kind = .macroName := by
    refine (Reads.token _).map fun ts t read => ?_
    exact ⟨t, read.1, by simpa using read.2⟩
  have word : Yields name fun _ _ => True := (Reads.token _).map fun _ _ _ => trivial
  have dot : Yields (operator ['.']) fun _ _ => True :=
    (Reads.token _).mono fun _ _ _ _ => trivial
  have round : Yields (do let _ ← operator ['.']; name) fun _ _ => True :=
    dot.bind fun _ _ _ => word.mono fun _ _ _ _ => trivial
  refine Reads.orElse ?_ ?_
  · refine word.bind fun us _ _ => round.many.bind fun vs _ _ => dot.bind fun ws _ _ => ?_
    refine last.bind fun xs _ read => Reads.pure ?_
    obtain ⟨t, rfl, kind⟩ := read
    exact ⟨us ++ (vs ++ ws), t, by simp, kind⟩
  · exact last.mono fun ts _ _ ⟨t, read, kind⟩ => ⟨[], t, read, kind⟩

theorem reads_argumentList : Yields (argumentList (tight '(')) fun ts _ =>
    ∃ front t, ts = front ++ [t] ∧ t.isPunctuation ')' = true := by
  refine (yields_tight '(').bind fun us _ _ => yields_callArguments.bind fun vs _ _ => ?_
  refine (Reads.token _).bind fun ws t read => Reads.pure ?_
  obtain ⟨rfl, closing⟩ := read
  exact ⟨us ++ vs, t, by simp, closing⟩

namespace Seam

variable {s : Seam} {place : List Token → Prop} {n gap : Nat}

/-- To ask a rule is to run it. -/
theorem On.rule {answer : Row → Answer} {p : Parser Node} (h : s.On place n gap p)
    (run : ∀ chart, RulesRun chart → Parser.rule answer chart = p chart) :
    s.On place n gap (Parser.rule answer) := by
  intro us suffix length here
  have left := run _ (rulesRun_ofTokens (ordered_alone suffix))
  have right := run _ (rulesRun_ofTokens (ordered_joined suffix))
  cases h us suffix length here with
  | fails none_here none_there => exact .fails (left.trans none_here) (right.trans none_there)
  | finds below shorter found found' =>
    exact .finds below shorter (left.trans found) (right.trans found')

section Operands

theorem firm_macroName : s.Firm n 1 macroName := (firm_kind (by decide)).map

theorem firm_macroCallee : s.Firm n 1 macroCallee := by
  have round : s.Firm n 1 (do let _ ← operator ['.']; name) :=
    (firm_operator _).bind fun _ => firm_name.loosen
  refine On.orElse ?_ firm_macroName
  refine firm_name.bind fun _ => round.many.bind fun _ => (firm_operator _).loosen.bind fun _ => ?_
  exact firm_macroName.loosen.give

/-- What a parser takes before the seam. -/
theorem taken_of_found {α : Type} {p : Parser α} {post : List Token → α → Prop} {a : α}
    {us vs : List Token} (reads : Yields p post) (suffix : us <:+ s.front)
    (found : p (s.alone us) = some (a, s.alone vs)) : ∃ taken, us = taken ++ vs ∧ post taken a := by
  have ordered := ordered_alone suffix
  obtain ⟨taken, split, read⟩ := reads (s.alone us) (ofTokens_meets ordered)
    (by rwa [alone, tokens_ofTokens]) a _ found
  have tokens := congrArg Chart.tokens split
  simp only [Chart.tokens_append, alone, tokens_ofTokens, ← List.append_assoc] at tokens
  exact ⟨_, List.append_cancel_right tokens, read⟩

variable (known : s.Known n)
include known

/-- The arguments of a macro start only where what opens is complete. -/
theorem agrees_macroArguments {front us : List Token} {t : Token}
    (split : s.front = front ++ t :: us) (length : us.length < n) (macro_t : t.kind = .macroName)
    (open_arguments : argumentList (tight '(') (s.alone us) = none) :
    s.Agrees 0 (many (rule Row.statement)) us := by
  have complete := s.sealed_ending.argued front t (us ++ s.ending) (by simp [split]) macro_t
    open_arguments
  refine @Agrees.many _ s _ us (fun vs => ArgumentAt (us ++ s.ending) (vs ++ s.ending)) .first
    (fun vs below reached => ?_) fun vs node ws _ reached found => reached.next found
  have suffix : us <:+ s.front := ⟨front ++ [t], by simp [split]⟩
  have := below.length_le
  exact known.statement vs (below.trans suffix) (by omega) (complete _ reached)

theorem firm_macroCall : s.Firm (n + 1) 1 macroCall := by
  intro us suffix length _
  have callee : s.Agrees 1 macroCallee us := firm_macroCallee us suffix length trivial
  have brackets : s.Firm (n + 1) 1 (argumentList (tight '(')) :=
    firm_argumentList known (leads_tight (by decide))
  refine Agrees.orElse_of (callee.bind fun _ vs below _ => ?_) fun failed =>
    callee.bind fun _ vs _ found => ?_
  · have := below.length_le
    exact brackets.loosen.give vs (below.trans suffix) (by omega) trivial
  · rw [bind_apply, found] at failed
    have open_arguments : argumentList (tight '(') (s.alone vs) = none := by
      rcases bind_eq_none.mp failed with failed | ⟨_, _, _, failed⟩
      · exact failed
      · cases failed
    obtain ⟨_, rfl, front, t, rfl, macro_t⟩ := taken_of_found reads_macroCallee suffix found
    obtain ⟨before, whole⟩ := suffix
    have split : s.front = (before ++ front) ++ t :: vs := by simp [← whole]
    simp only [List.length_append, List.length_cons] at length
    exact (agrees_macroArguments known split (by omega) macro_t open_arguments).bind
      fun _ ws _ _ => .pure _ ws

theorem firm_paren : s.Firm (n + 1) 1 paren := by
  have opening : s.Leads (punctuation '(') := leads_punctuation (by decide)
  have semicolon : s.Leads (punctuation ';') := leads_punctuation (by decide)
  have close : s.Firm n 0 (punctuation ')') := (firm_punctuation ')').loosen
  have items := steady_commaList (steady_callItem known)
  refine On.orElse ?_ (On.orElse ?_ (On.orElse ?_ (On.orElse ?_ (On.orElse ?_ ?_))))
  · exact opening.bind fun _ => On.anywhere close.give
  · refine opening.bind fun _ => On.anywhere (On.loosen (semicolon.before fun _ => ?_))
    exact items.bind fun _ => close.give
  · exact opening.bind fun _ => (steady_comprehension known _).loosen.bind fun _ => close.give
  · refine opening.bind fun _ => (steady_callItem known).loosen.bind fun _ => ?_
    exact On.loosen (leads_comma.before fun _ => items.bind fun _ => close.give)
  · exact opening.bind fun _ => known.statement.loosen.bind fun _ => close.give
  · refine opening.bind fun _ => (semicolon.separated1 known.statement).loosen.bind fun _ => ?_
    exact (firm_punctuation ';').option.bind fun _ => close.give

theorem firm_braces : s.Firm (n + 1) 1 braces := by
  refine (leads_punctuation (by decide)).bind fun _ => ?_
  exact (steady_commaList known.arrow).bind fun _ => (firm_punctuation '\x7d').loosen.give

end Operands

section Literals

theorem firm_tight (c : Char) : s.Firm n 1 (tight c) :=
  firm_token fun t accepted => inline_punctuation c t (Bool.and_eq_true_iff.mp accepted).1

theorem firm_symbol : s.Firm n 1 symbol := by
  refine On.orElse ((firm_operator _).bind fun _ => On.give (On.loosen (firm_token ?_)))
    (firm_operator _).map
  intro t accepted
  simp only [isSymbolName, Bool.and_eq_true] at accepted
  intro newline
  simp [newline] at accepted

theorem firm_operatorValue : s.Firm n 1 operatorValue := by
  have next : s.Firm n 1 (comma <|> punctuation ')' <|> punctuation ']' <|> tight '(') :=
    (firm_punctuation ',').orElse ((firm_punctuation ')').orElse ((firm_punctuation ']').orElse
      (firm_tight '(')))
  refine On.bind (firm_token fun t accepted => ?_) fun _ => next.ahead.give
  simp only [Bool.and_eq_true, beq_iff_eq] at accepted
  simp [accepted.1.1]

variable (paren : s.Firm n 1 (rule Row.paren))
include paren

theorem firm_interpolation : s.Firm n 1 interpolation :=
  (firm_operator _).bind fun _ => (firm_name.orElse paren).loosen.give

theorem firm_stringLiteral : s.Firm n 1 stringLiteral := by
  refine (firm_kind (by decide)).bind fun _ => On.bind (On.many (On.orElse ?_ ?_)) fun _ => ?_
  · exact (firm_interpolation paren).map
  · exact (firm_kind (by decide)).map
  · exact (firm_kind (by decide)).loosen.give

theorem firm_quotation : s.Firm n 1 quotation :=
  (firm_operator _).bind fun _ => (firm_tight '(').ahead.bind fun _ => paren.loosen.give

theorem firm_number : s.Firm n 1 number := by
  have literal : s.Firm n 1 (leaf .integerLiteral <$> kind .integer <|>
      leaf .floatLiteral <$> kind .float) :=
    (firm_kind (by decide)).map.orElse (firm_kind (by decide)).map
  have factor : s.Firm n 0 factor := by
    refine On.orElse (On.loosen (On.map (firm_token fun t accepted => ?_))) ?_
    · exact inline_kind (by decide) t (Bool.and_eq_true_iff.mp accepted).1
    · exact (firm_tight '(').ahead.bind fun _ => paren.loosen
  exact literal.bind fun _ => factor.option.give

end Literals

section Rules

variable (known : s.Known n)
include known

theorem firm_suffix (paren : s.Firm (n + 1) 1 (rule Row.paren)) : s.Firm (n + 1) 1 suffix := by
  have arguments : s.Firm (n + 1) 1 (argumentList (tight '(')) :=
    firm_argumentList known (leads_tight (by decide))
  have field : s.Firm (n + 1) 1 fieldName :=
    firm_name.orElse ((firm_interpolation paren).orElse firm_symbol)
  refine On.orElse ?_ (On.orElse ?_ (On.orElse ?_ (On.orElse ?_ (On.orElse ?_ (On.orElse
    (firm_operator _).map (firm_operator _).map)))))
  · intro us suffix length _
    refine (arguments us suffix length trivial).bind fun _ vs below found => ?_
    obtain ⟨_, rfl, front, t, rfl, closing⟩ := taken_of_found reads_argumentList suffix found
    have behind : t :: vs <:+ s.front := List.IsSuffix.trans ⟨front, by simp⟩ suffix
    have := below.length_le
    exact (agrees_doClause known behind (by omega) closing).option.bind fun _ ws _ _ => .pure _ ws
  · exact (firm_operator _).bind fun _ => arguments.loosen.give
  · exact (firm_operator _).bind fun _ => field.loosen.give
  · refine (leads_tight (by decide)).bind fun _ => (steady_indexArguments known).bind fun _ => ?_
    exact (firm_punctuation ']').loosen.give
  · refine (leads_tight (by decide)).bind fun _ => (steady_commaList known.arrow).bind fun _ => ?_
    exact (firm_punctuation '\x7d').loosen.give

theorem steady_atom (paren : s.Firm (n + 1) 1 (rule Row.paren)) : s.Steady (n + 1) 1 atom := by
  have leafOf : ∀ {k : Token.Kind} {f : Token → Node}, k ≠ .newline →
      s.Steady (n + 1) 1 (f <$> kind k) :=
    fun inline => On.anywhere (firm_kind inline).map
  have boolean : s.Firm (n + 1) 1 (keyword .trueKw <|> keyword .falseKw) :=
    (firm_keyword _).orElse (firm_keyword _)
  exact On.orElse (On.anywhere (firm_macroCall known)) (On.orElse (On.anywhere firm_name)
    (On.orElse (On.anywhere (firm_number paren)) (On.orElse (On.anywhere (firm_stringLiteral paren))
    (On.orElse (leafOf (by decide)) (On.orElse (On.anywhere boolean.map)
    (On.orElse (leafOf (by decide)) (On.orElse (On.anywhere (firm_quotation paren))
    (On.orElse (On.anywhere firm_symbol) (On.orElse (On.anywhere (firm_interpolation paren))
    (On.orElse (On.anywhere paren) (On.orElse (steady_bracket known)
    (On.orElse (On.anywhere (firm_braces known)) (On.orElse (steady_blockConstruct known)
    (On.anywhere firm_operatorValue))))))))))))))

theorem steady_unary (typed : s.Steady (n + 1) 1 (rule Row.typed)) :
    s.Steady (n + 1) 1 unary := by
  have exponent : s.Firm (n + 1) 1 (do
      let op ← operator ['^'] <|> operator ['.', '^']
      let exponent ← rule Row.unary
      return (op, exponent)) :=
    ((leads_operator (by decide)).orElse (leads_operator (by decide))).bind fun _ =>
      known.unary.loosen.give
  refine On.orElse (On.anywhere ?_) (On.orElse (On.anywhere ?_) ?_)
  · exact (leads_token (leading_among (by decide))).bind fun _ => known.unary.loosen.give
  · exact (leads_operator (by decide)).bind fun _ => known.unary.loosen.give
  · exact typed.bind fun _ => exponent.option.give

theorem steady_ternary (unary : s.Steady (n + 1) 1 (rule Row.unary)) :
    s.Steady (n + 1) 1 ternary := by
  have fresh (t : Token) (kind : t.kind = .ternaryColon) : Fresh t := by
    simp [Fresh, Token.endsValue, Token.isOperator, kind]
  have colon : s.Leads (kind .ternaryColon) := leads_token (leading_kind fresh (by decide))
  have branches : s.Firm (n + 1) 1 (do
      let _ ← operator ['?']
      let yes ← rule Row.ternary
      let _ ← kind .ternaryColon
      let no ← rule Row.ternary
      return [yes, no]) :=
    (leads_operator (by decide)).bind fun _ => known.ternary.loosen.bind fun _ =>
      (colon.before fun _ => known.ternary.loosen.give).loosen
  exact (steady_chain known (Nat.le_refl _) unary List.suffix_rfl).bind fun _ =>
    branches.option.give

omit known in
theorem firm_assigned {right : Parser Node} (steady : s.Steady n 1 right) :
    s.Firm (n + 1) 1 (assigned right) :=
  (leads_token leading_assignment).bind fun _ => steady.loosen.give

theorem steady_openTuple (arrow : s.Steady (n + 1) 1 (rule Row.arrow)) :
    s.Steady (n + 1) 1 openTuple := by
  have more : s.Firm (n + 1) 1 (do let _ ← comma; rule Row.arrow) :=
    leads_comma.bind fun _ => known.arrow.loosen
  exact arrow.bind fun _ => more.many.bind fun _ => (firm_punctuation ',').option.give

end Rules

section Statements

theorem firm_importName : s.Firm n 1 importName :=
  firm_name.orElse (firm_macroName.orElse (firm_kind (by decide)).map)

theorem firm_importPath : s.Firm n 0 importPath := by
  have dots : s.Firm n 1 (operator ['.'] <|> operator ['.', '.'] <|> operator ['.', '.', '.']) :=
    (firm_operator _).orElse ((firm_operator _).orElse (firm_operator _))
  have round : s.Firm n 1 (do let _ ← operator ['.']; importName) :=
    (firm_operator _).bind fun _ => firm_importName.loosen
  exact dots.many.bind fun _ => firm_importName.loosen.bind fun _ => round.many.give

theorem firm_importItem : s.Firm n 0 importItem := by
  have newName : s.Firm n 1 (do let _ ← token isAsWord; importName) := by
    refine On.bind (firm_token fun t accepted => ?_) fun _ => firm_importName.loosen
    exact inline_kind (by decide) t (Bool.and_eq_true_iff.mp accepted).1
  exact firm_importPath.bind fun _ => newName.option.give

theorem firm_importItems : s.Firm n 0 importItems := by
  have list : s.Firm n 0 (separated1 importItem comma) := by
    refine firm_importItem.bind fun _ => On.give (On.many ?_)
    exact (firm_punctuation ',').bind fun _ => firm_importItem
  refine On.orElse ?_ list
  exact firm_importPath.bind fun _ => (firm_operator _).loosen.bind fun _ => list.give

theorem firm_importStatement : s.Firm n 1 importStatement :=
  ((firm_keyword _).orElse (firm_keyword _)).bind fun _ => firm_importItems.give

theorem firm_exportStatement : s.Firm n 1 exportStatement := by
  have round : s.Firm n 1 (do let _ ← comma; importName) :=
    (firm_punctuation ',').bind fun _ => firm_importName.loosen
  refine (firm_keyword _).bind fun _ => On.give ?_
  exact firm_importName.loosen.bind fun _ => round.many.give

variable (known : s.Known n)
include known

theorem firm_abstractDefinition : s.Firm (n + 1) 1 abstractDefinition := by
  refine (firm_keyword _).bind fun _ => On.loosen ((leads_keyword (by decide)).bind fun _ => ?_)
  exact (steady_typeHead known).loosen.bind fun _ => (firm_keyword _).loosen.give

theorem firm_declaration {word : Keyword} {kind : Kind} (leading : word ∉ valueWords) :
    s.Firm (n + 1) 1 (declaration word kind) :=
  (leads_keyword leading).bind fun _ => known.assignment.loosen.give

theorem firm_returnStatement : s.Firm (n + 1) 1 returnStatement :=
  (leads_keyword (by decide)).bind fun _ => known.assignment.option.give

theorem steady_keywordStatement : s.Steady (n + 1) 1 keywordStatement := by
  have named {word : Keyword} (leading : word ∉ valueWords)
      (here : ∀ t : Token, t.kind = .keyword word →
        construct? t = some (definition word .moduleDefinition name)) :
      s.Steady (n + 1) 1 (definition word .moduleDefinition name) :=
    steady_definition known leading here (On.anywhere firm_name)
  have jump {word : Keyword} {f : Token → Node} : s.Steady (n + 1) 1 (f <$> keyword word) :=
    On.anywhere (firm_keyword word).map
  refine On.orElse (steady_structDefinition known) (On.orElse
    (On.anywhere (firm_abstractDefinition known)) (On.orElse (steady_primitiveDefinition known)
    (On.orElse ?_ (On.orElse ?_ (On.orElse (On.anywhere firm_importStatement)
    (On.orElse (On.anywhere firm_exportStatement)
    (On.orElse (On.anywhere (firm_declaration known (by decide)))
    (On.orElse (On.anywhere (firm_declaration known (by decide)))
    (On.orElse (On.anywhere (firm_declaration known (by decide)))
    (On.orElse (On.anywhere (firm_returnStatement known)) (On.orElse jump jump)))))))))))
  · exact On.orElse (named (by decide) fun t ht => by simp only [construct?, ht])
      (named (by decide) fun t ht => by simp only [construct?, ht])
  · exact steady_definition known (by decide) (fun t ht => by simp only [construct?, ht])
      known.whereExpression.give

end Statements

theorem Known.next (known : s.Known n) : s.Known (n + 1) := by
  have paren : s.Firm (n + 1) 1 (rule Row.paren) := (firm_paren known).rule fun _ run => run.paren
  have primary : s.Steady (n + 1) 1 (rule Row.primary) := by
    refine On.rule (p := primary) ?_ fun _ run => run.primary
    exact (steady_atom known paren).bind fun _ => (firm_suffix known paren).many.give
  have typed : s.Steady (n + 1) 1 (rule Row.typed) := by
    have types : s.Firm (n + 1) 1 (do let _ ← operator [':', ':']; rule Row.primary) :=
      (leads_operator (by decide)).bind fun _ => known.primary.loosen
    refine On.rule (p := Grammar.typed) ?_ fun _ run => run.typed
    exact primary.bind fun _ => types.many.give
  have unary : s.Steady (n + 1) 1 (rule Row.unary) :=
    (steady_unary known typed).rule fun _ run => run.unary
  have ternary : s.Steady (n + 1) 1 (rule Row.ternary) :=
    (steady_ternary known unary).rule fun _ run => run.ternary
  have pair : s.Steady (n + 1) 1 (rule Row.pair) := by
    have right : s.Firm (n + 1) 1 (do
        let op ← operator ['=', '>']
        let right ← rule Row.pair
        return (op, right)) := (leads_operator (by decide)).bind fun _ => known.pair.loosen.give
    refine On.rule (p := Grammar.pair) ?_ fun _ run => run.pair
    exact ternary.bind fun _ => right.option.give
  have whereExpression : s.Steady (n + 1) 1 (rule Row.whereExpression) := by
    have clauses : s.Firm (n + 1) 1 (do let _ ← keyword .whereKw; rule Row.pair) :=
      (leads_keyword (by decide)).bind fun _ => known.pair.loosen
    refine On.rule (p := Grammar.whereExpression) ?_ fun _ run => run.whereExpression
    exact pair.bind fun _ => clauses.many.give
  have arrow : s.Steady (n + 1) 1 (rule Row.arrow) := by
    have body : s.Firm (n + 1) 1 (do let _ ← operator ['-', '>']; rule Row.expression) :=
      (leads_operator (by decide)).bind fun _ => known.expression.loosen
    refine On.rule (p := Grammar.arrow) ?_ fun _ run => run.arrow
    exact whereExpression.bind fun _ => body.option.give
  have expression : s.Steady (n + 1) 1 (rule Row.expression) := by
    refine On.rule (p := Grammar.expression) ?_ fun _ run => run.expression
    exact arrow.bind fun _ => (firm_assigned known.expression).option.give
  have assignment : s.Steady (n + 1) 1 (rule Row.assignment) := by
    refine On.rule (p := assignmentExpression) ?_ fun _ run => run.assignment
    exact (steady_openTuple known arrow).bind fun _ => (firm_assigned known.assignment).option.give
  have statement : s.Steady (n + 1) 1 (rule Row.statement) :=
    ((steady_keywordStatement known).orElse assignment).rule fun _ run => run.statement
  exact ⟨On.anywhere paren, primary, typed, unary, ternary, pair, whereExpression, arrow,
    expression, assignment, statement⟩

/-- Wherever what opens is complete, all rules agree in both readings. -/
theorem known (s : Seam) (n : Nat) : s.Known n := by
  induction n with
  | zero =>
    have none_left : ∀ answer, s.Steady 0 1 (rule answer) := by
      intro answer us _ length
      exact absurd length (Nat.not_lt_zero _)
    constructor
    all_goals exact none_left _
  | succ n ih => exact ih.next

end Seam

end CellBindings
