import CellBindings.Proofs.ParserSeams

/-!
Arguments at a seam. A parser that asks for rules only behind fresh tokens agrees, if the rules agree
wherever fewer tokens are left. This covers arguments of calls, comprehensions and the names that
loops bind.
-/

namespace CellBindings

open CellBindings.Parser Grammar

namespace Seam

section Tests

theorem inline_of_kind {accepts : Token → Bool} {k : Token.Kind}
    (only : ∀ t, accepts t = true → t.kind = k) (inline : k ≠ .newline) : Inline accepts := by
  intro t accepted
  rw [only t accepted]
  exact inline

theorem inline_kind {k : Token.Kind} (inline : k ≠ .newline) : Inline fun t => t.kind == k :=
  inline_of_kind (by simp) inline

theorem inline_keyword (word : Keyword) : Inline fun t => t.isKeyword word := by
  apply @inline_of_kind _ (.keyword word)
  · simp [Token.isKeyword]
  · simp

theorem inline_operator (spelling : Text) : Inline fun t => t.isOperator spelling := by
  apply @inline_of_kind _ .operator
  · simp +contextual [Token.isOperator]
  · decide

theorem inline_punctuation (c : Char) : Inline fun t => t.isPunctuation c := by
  apply @inline_of_kind _ .punctuation
  · simp +contextual [Token.isPunctuation]
  · decide

theorem leading_kind {k : Token.Kind} (leading : ∀ t : Token, t.kind = k → Fresh t)
    (inline : k ≠ .newline) : Leading fun t => t.kind == k := by
  intro t accepted
  have kind : t.kind = k := by simpa using accepted
  exact ⟨by rw [kind]; exact inline, leading t kind⟩

def valueWords : List Keyword := [.endKw, .trueKw, .falseKw]

theorem leading_keyword {word : Keyword} (leading : word ∉ valueWords) :
    Leading fun t => t.isKeyword word := by
  intro t accepted
  have kind : t.kind = .keyword word := by simpa [Token.isKeyword] using accepted
  refine ⟨by simp [kind], ?_, by simp [Token.isOperator, kind]⟩
  simpa [Token.endsValue, kind, valueWords, and_assoc] using leading

def valueOperators : List Text := [['\x27'], ['.', '.', '.'], [':']]

theorem leading_of_operator {t : Token} (kind : t.kind = .operator)
    (leading : t.text ∉ valueOperators) : t.kind ≠ .newline ∧ Fresh t := by
  simp only [valueOperators, List.mem_cons, List.not_mem_nil, or_false, not_or] at leading
  refine ⟨by simp [kind], ?_, ?_⟩
  · simp [Token.endsValue, kind, leading]
  · simp [Token.isOperator, leading]

theorem leading_operator {spelling : Text} (leading : spelling ∉ valueOperators) :
    Leading fun t => t.isOperator spelling := by
  intro t accepted
  simp only [Token.isOperator, Bool.and_eq_true, beq_iff_eq] at accepted
  exact leading_of_operator accepted.1 (by rw [accepted.2]; exact leading)

theorem leading_among {spellings : List Text}
    (leading : ∀ text ∈ spellings, text ∉ valueOperators ∧ '.' :: text ∉ valueOperators) :
    Leading (isAmong spellings) := by
  intro t accepted
  simp only [isAmong, Bool.and_eq_true, beq_iff_eq, Bool.or_eq_true] at accepted
  obtain ⟨kind, plain | dotted⟩ := accepted
  · exact leading_of_operator kind (leading _ (by simpa using plain)).1
  · split at dotted
    · next text same =>
      have among := (leading text (by simpa using dotted)).2
      exact leading_of_operator kind (by rw [same]; exact among)
    · cases dotted

theorem leading_level {level : Level} (other : level ≠ .range) : Leading level.accepts := by
  intro t accepted
  cases level with
  | disjunction => exact @leading_operator ['|', '|'] (by decide) t accepted
  | conjunction => exact @leading_operator ['&', '&'] (by decide) t accepted
  | comparison =>
    simp only [Level.accepts, isComparison, Bool.or_eq_true] at accepted
    rcases accepted with (accepted | accepted) | accepted
    · exact leading_among (by decide) t accepted
    · exact @leading_keyword .inKw (by decide) t accepted
    · exact @leading_keyword .isaKw (by decide) t accepted
  | range => exact absurd rfl other
  | pipe =>
    simp only [Level.accepts, Bool.or_eq_true] at accepted
    rcases accepted with accepted | accepted
    all_goals exact leading_operator (by decide) t accepted
  | plus | times | shift => exact leading_among (by decide) t accepted

theorem inline_level (level : Level) : Inline level.accepts := by
  intro t accepted
  by_cases other : level = .range
  · subst other
    simp only [Level.accepts, Bool.or_eq_true] at accepted
    rcases accepted with accepted | accepted
    all_goals exact inline_operator _ t accepted
  · exact (leading_level other t accepted).1

theorem leading_assignment : Leading isAssignment := by
  intro t accepted
  simp only [isAssignment, Bool.and_eq_true, beq_iff_eq, Bool.or_eq_true] at accepted
  obtain ⟨kind, assigns⟩ := accepted
  refine leading_of_operator kind fun value => ?_
  simp only [valueOperators, List.mem_cons, List.not_mem_nil, or_false] at value
  rcases value with value | value | value
  all_goals simp [value] at assigns

theorem leading_punctuation {c : Char} (leading : c ∉ [')', ']', '\x7d']) :
    Leading fun t => t.isPunctuation c := by
  intro t accepted
  simp only [Token.isPunctuation, Bool.and_eq_true, beq_iff_eq] at accepted
  obtain ⟨kind, text⟩ := accepted
  refine ⟨by simp [kind], ?_, by simp [Token.isOperator, kind]⟩
  simpa [Token.endsValue, kind, text, and_assoc] using leading

theorem leading_tight {c : Char} (leading : c ∉ [')', ']', '\x7d']) :
    Leading fun t => t.isPunctuation c && !t.spaceBefore := by
  intro t accepted
  simp only [Bool.and_eq_true] at accepted
  exact leading_punctuation leading t accepted.1

end Tests

variable {α : Type} {s : Seam} {place : List Token → Prop} {n gap : Nat}

theorem leads_keyword {word : Keyword} (leading : word ∉ valueWords) : s.Leads (keyword word) :=
  leads_token (leading_keyword leading)

theorem leads_operator {spelling : Text} (leading : spelling ∉ valueOperators) :
    s.Leads (operator spelling) :=
  leads_token (leading_operator leading)

theorem leads_punctuation {c : Char} (leading : c ∉ [')', ']', '\x7d']) :
    s.Leads (punctuation c) :=
  leads_token (leading_punctuation leading)

theorem leads_tight {c : Char} (leading : c ∉ [')', ']', '\x7d']) : s.Leads (tight c) :=
  leads_token (leading_tight leading)

theorem firm_kind {k : Token.Kind} (inline : k ≠ .newline) : s.Firm n 1 (kind k) :=
  firm_token (inline_kind inline)

theorem firm_keyword (word : Keyword) : s.Firm n 1 (keyword word) :=
  firm_token (inline_keyword word)

theorem firm_operator (spelling : Text) : s.Firm n 1 (operator spelling) :=
  firm_token (inline_operator spelling)

theorem firm_punctuation (c : Char) : s.Firm n 1 (punctuation c) :=
  firm_token (inline_punctuation c)

theorem firm_name : s.Firm n 1 name := (firm_kind (by decide)).map

abbrev Known (s : Seam) (n : Nat) : Prop := EachRule fun answer => s.Steady n 1 (rule answer)

theorem leads_comma : s.Leads comma := leads_punctuation (by decide)

theorem steady_commaList {item : Parser Node} (h : s.Steady n 1 item) :
    s.Steady n 0 (commaList item) :=
  (leads_comma.separated h).bind fun _ => (firm_punctuation ',').option.give

section Arguments

variable (known : s.Known n)
include known

theorem steady_forBinding : s.Steady n 1 forBinding := by
  have sign : s.Leads (keyword .inKw <|> operator ['='] <|> operator ['∈']) :=
    (leads_keyword (by decide)).orElse ((leads_operator (by decide)).orElse
      (leads_operator (by decide)))
  exact known.typed.bind fun _ => (sign.before fun _ => known.ternary.loosen.give).loosen

theorem steady_forBindings : s.Steady n 1 forBindings :=
  leads_comma.separated1 (steady_forBinding known)

theorem firm_forClause : s.Firm n 1 forClause :=
  (leads_keyword (by decide)).before fun _ => (steady_forBindings known).loosen.give

theorem firm_ifClause : s.Firm n 1 ifClause :=
  (leads_keyword (by decide)).before fun _ => known.arrow.loosen.give

theorem steady_comprehension (kind : Kind) : s.Steady n 1 (comprehension kind) := by
  refine known.arrow.bind fun _ => (firm_forClause known).loosen.bind fun _ => ?_
  exact ((firm_forClause known).orElse (firm_ifClause known)).many.give

theorem steady_callItem : s.Steady n 1 callItem := by
  refine On.orElse ?_ known.arrow
  refine known.typed.bind fun _ => ?_
  exact On.loosen ((leads_operator (by decide)).before fun _ => known.arrow.loosen.give)

theorem steady_callArguments : s.Steady n 0 callArguments := by
  have items := steady_commaList (steady_callItem known)
  refine On.orElse ?_ ?_
  · exact (steady_comprehension known _).loosen.give
  · refine items.bind fun _ => On.give ?_
    exact ((leads_punctuation (by decide)).before fun _ => items.give).option

theorem steady_indexArguments : s.Steady n 0 indexArguments :=
  (steady_comprehension known _).loosen.give.orElse (steady_commaList known.arrow)

theorem firm_argumentList {first : Parser Token} (h : s.Leads first) :
    s.Firm (n + 1) 1 (argumentList first) := by
  refine h.bind fun _ => (steady_callArguments known).bind fun _ => ?_
  exact (firm_punctuation ')').loosen.give

end Arguments

end Seam

end CellBindings
