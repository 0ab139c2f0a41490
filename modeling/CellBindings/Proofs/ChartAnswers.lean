import CellBindings.Grammar.File
import CellBindings.Proofs.ParserReads

/-!
The chart of a token list. It is built from its end, and each row rule by rule, so if every rule of
the grammar reads what meets a specification then all answers in the chart meet it.
-/

namespace CellBindings

open CellBindings.Parser

/-- Each rule reads what meets the specification, on charts whose answers do. -/
structure RulesMeet (meets : List Token → Node → Prop) : Prop where
  paren : Reads meets Grammar.paren meets
  primary : Reads meets Grammar.primary meets
  typed : Reads meets Grammar.typed meets
  unary : Reads meets Grammar.unary meets
  ternary : Reads meets Grammar.ternary meets
  pair : Reads meets Grammar.pair meets
  whereExpression : Reads meets Grammar.whereExpression meets
  arrow : Reads meets Grammar.arrow meets
  expression : Reads meets Grammar.expression meets
  assignment : Reads meets Grammar.assignmentExpression meets
  statement : Reads meets Grammar.statement meets

section Rows

variable {meets : List Token → Node → Prop} {rest : Chart} {row : Row}

/-- The answer of a parser meets the specification, if what it reads does. -/
theorem answer_meets {p : Parser Node} {chart : Chart} (hp : Reads meets p meets)
    (hc : Chart.Meets meets chart) (ho : Ordered (Chart.tokens chart)) :
    (answer p chart).Meets meets (Chart.tokens chart) := by
  intro node count hg
  change (p chart).map _ = some (node, count) at hg
  simp only [Option.map_eq_some_iff, Prod.exists, Prod.mk.injEq] at hg
  obtain ⟨found, rest, hr, rfl, rfl⟩ := hg
  obtain ⟨taken, rfl, hs⟩ := hp chart hc ho found rest hr
  have length : (taken ++ rest).length - rest.length = (Chart.tokens taken).length := by simp
  rw [length, Chart.tokens_append, List.take_left]
  exact ⟨by simp, hs⟩

theorem never_meets (ts : List Token) : Answer.never.Meets meets ts := by
  intro node count hg
  cases hg

def Row.Sound (meets : List Token → Node → Prop) (rest : Chart) (row : Row) : Prop :=
  ∀ answer ∈ row.answers, answer.Meets meets (Chart.tokens (row :: rest))

theorem Row.Sound.learn {p : Parser Node} (h : row.Sound meets rest)
    (hc : Chart.Meets meets rest) (ho : Ordered (Chart.tokens (row :: rest)))
    (hp : Reads meets p meets) {row' : Row} (same : row'.token = row.token)
    (new : ∀ a ∈ row'.answers, a = answer p (row :: rest) ∨ a ∈ row.answers) :
    row'.Sound meets rest := by
  intro a ha
  rw [Chart.tokens_cons, same, ← Chart.tokens_cons]
  rcases new a ha with rfl | ha
  · exact answer_meets hp ⟨h, hc⟩ ho
  · exact h a ha

/-- Each rule is learned from a row that has the answers of the tighter ones. -/
theorem RulesMeet.build (rules : RulesMeet meets) {t : Token} (hc : Chart.Meets meets rest)
    (ho : Ordered (t :: Chart.tokens rest)) : (Row.build t rest).Sound meets rest := by
  unfold Row.build
  extract_lets r0 r1 r2 r3 r4 r5 r6 r7 r8 r9 r10
  have h0 : r0.Sound meets rest := by
    intro a ha
    have hn : a = .never := by simpa [r0, Row.answers, Row.bare] using ha
    rw [hn]
    exact never_meets _
  have h1 : r1.Sound meets rest := h0.learn hc ho rules.paren rfl (by simp [r1, Row.answers])
  have h2 : r2.Sound meets rest := h1.learn hc ho rules.primary rfl (by simp [r2, Row.answers])
  have h3 : r3.Sound meets rest := h2.learn hc ho rules.typed rfl (by simp [r3, Row.answers])
  have h4 : r4.Sound meets rest := h3.learn hc ho rules.unary rfl (by simp [r4, Row.answers])
  have h5 : r5.Sound meets rest := h4.learn hc ho rules.ternary rfl (by simp [r5, Row.answers])
  have h6 : r6.Sound meets rest := h5.learn hc ho rules.pair rfl (by simp [r6, Row.answers])
  have h7 : r7.Sound meets rest :=
    h6.learn hc ho rules.whereExpression rfl (by simp [r7, Row.answers])
  have h8 : r8.Sound meets rest := h7.learn hc ho rules.arrow rfl (by simp [r8, Row.answers])
  have h9 : r9.Sound meets rest := h8.learn hc ho rules.expression rfl (by simp [r9, Row.answers])
  have h10 : r10.Sound meets rest :=
    h9.learn hc ho rules.assignment rfl (by simp [r10, Row.answers])
  exact h10.learn hc ho rules.statement rfl (by simp [Row.answers])

end Rows

theorem ofTokens_cons (t : Token) (ts : List Token) :
    Chart.ofTokens (t :: ts) = Row.build t (Chart.ofTokens ts) :: Chart.ofTokens ts := rfl

theorem build_token (t : Token) (rest : Chart) : (Row.build t rest).token = t := rfl

@[simp] theorem tokens_ofTokens (ts : List Token) : Chart.tokens (Chart.ofTokens ts) = ts := by
  induction ts with
  | nil => rfl
  | cons t ts ih => rw [ofTokens_cons, Chart.tokens_cons, build_token, ih]

/-- Every answer in the chart of tokens in order meets what the rules do. -/
theorem RulesMeet.ofTokens {meets : List Token → Node → Prop} (rules : RulesMeet meets)
    {ts : List Token} (ho : Ordered ts) : Chart.Meets meets (Chart.ofTokens ts) := by
  induction ts with
  | nil => trivial
  | cons t ts ih =>
    have hc := ih ho.tail
    rw [ofTokens_cons]
    exact ⟨rules.build hc (by rwa [tokens_ofTokens]), hc⟩

end CellBindings
