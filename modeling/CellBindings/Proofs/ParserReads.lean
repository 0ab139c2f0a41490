import CellBindings.Grammar.Chart
import CellBindings.Proofs.TokenRuns

/-!
What parsers read. `Reads meets p post` says that `p`, on a chart whose answers all meet a
specification, takes a front part of the chart and that `post` holds of the tokens in it and the
result. Each combinator has one rule, so a rule of the grammar is followed step by step.
-/

namespace CellBindings

variable {α β : Type}

namespace Chart

def tokens (chart : Chart) : List Token := chart.map Row.token

@[simp] theorem tokens_nil : tokens [] = [] := rfl

@[simp] theorem tokens_cons (row : Row) (rest : Chart) :
    tokens (row :: rest) = row.token :: tokens rest := rfl

@[simp] theorem tokens_append (a b : Chart) : tokens (a ++ b) = tokens a ++ tokens b :=
  List.map_append

@[simp] theorem length_tokens (chart : Chart) : (tokens chart).length = chart.length :=
  List.length_map _

end Chart

def Row.answers (row : Row) : List Answer :=
  [row.paren, row.primary, row.typed, row.unary, row.ternary, row.pair, row.whereExpression,
    row.arrow, row.expression, row.assignment, row.statement]

/-- What the answer takes from the front of the tokens has the tree it finds there. -/
def Answer.Meets (meets : List Token → Node → Prop) (answer : Answer) (ts : List Token) : Prop :=
  ∀ node count, answer.get = some (node, count) →
    count ≤ ts.length ∧ meets (ts.take count) node

def Chart.Meets (meets : List Token → Node → Prop) : Chart → Prop
  | [] => True
  | row :: rest =>
    (∀ answer ∈ row.answers, answer.Meets meets (Chart.tokens (row :: rest))) ∧
      Chart.Meets meets rest

theorem Chart.Meets.right {meets : List Token → Node → Prop} {a b : Chart}
    (h : Chart.Meets meets (a ++ b)) : Chart.Meets meets b := by
  induction a with
  | nil => exact h
  | cons row a ih => exact ih h.2

def Reads (meets : List Token → Node → Prop) (p : Parser α) (post : List Token → α → Prop) : Prop :=
  ∀ chart, Chart.Meets meets chart → Ordered (Chart.tokens chart) →
    ∀ a rest, p chart = some (a, rest) →
      ∃ taken, chart = taken ++ rest ∧ post (Chart.tokens taken) a

inductive Pieces (each : List Token → α → Prop) : List Token → List α → Prop where
  | nil : Pieces each [] []
  | cons {us vs a items} : each us a → Pieces each vs items →
      Pieces each (us ++ vs) (a :: items)

theorem Pieces.imp {P Q : List Token → α → Prop} (h : ∀ us a, P us a → Q us a) {ts : List Token}
    {items : List α} (pieces : Pieces P ts items) : Pieces Q ts items := by
  induction pieces with
  | nil => exact .nil
  | cons piece _ ih => exact .cons (h _ _ piece) ih

theorem Pieces.option {P : List Token → α → Prop} {ts : List Token} {o : Option α}
    (h : Pieces P ts o.toList) : (ts = [] ∧ o = none) ∨ ∃ a, o = some a ∧ P ts a := by
  cases o with
  | none =>
    cases h
    exact .inl ⟨rfl, rfl⟩
  | some a =>
    cases h with
    | cons ha rest =>
      cases rest
      exact .inr ⟨a, rfl, by simpa using ha⟩

/-- What holds of a first part and is kept by each piece holds of the whole. -/
theorem Pieces.foldl {each : List Token → α → Prop} {P : List Token → β → Prop} {f : β → α → β}
    (step : ∀ us b vs a, Ordered (us ++ vs) → P us b → each vs a → P (us ++ vs) (f b a))
    {ts us : List Token} {items : List α} {b : β} (pieces : Pieces each ts items)
    (ordered : Ordered (us ++ ts)) (h : P us b) : P (us ++ ts) (items.foldl f b) := by
  induction pieces generalizing us b with
  | nil => simpa using h
  | @cons vs ws a items piece _ ih =>
    rw [← List.append_assoc] at ordered ⊢
    exact ih ordered (step us b vs a ordered.left h piece)

theorem Parser.bind_apply (p : Parser α) (f : α → Parser β) (chart : Chart) :
    (p >>= f) chart = (p chart).bind fun result => f result.1 result.2 := by
  cases h : p chart with
  | none => simp [Bind.bind, h]
  | some result => simp [Bind.bind, h]

theorem Parser.orElse_apply (p q : Parser α) (chart : Chart) :
    (p <|> q) chart = (p chart).or (q chart) := by
  cases h : p chart with
  | none => simp [HOrElse.hOrElse, OrElse.orElse, Alternative.orElse, h]
  | some result => simp [HOrElse.hOrElse, OrElse.orElse, Alternative.orElse, h]

namespace Reads

variable {meets : List Token → Node → Prop} {p : Parser α}
  {P Q : List Token → α → Prop} {R : List Token → β → Prop}

theorem mono (hp : Reads meets p P) (h : ∀ ts a, Ordered ts → P ts a → Q ts a) :
    Reads meets p Q := by
  intro chart hc ho a rest hr
  obtain ⟨taken, rfl, post⟩ := hp chart hc ho a rest hr
  rw [Chart.tokens_append] at ho
  exact ⟨taken, rfl, h _ _ ho.left post⟩

/-- The order of the tokens may be used for what is to hold of them. -/
theorem ordered (hp : Reads meets p fun ts a => Ordered ts → P ts a) : Reads meets p P :=
  hp.mono fun _ _ ho h => h ho

theorem pure {a : α} (h : P [] a) : Reads meets (Pure.pure a : Parser α) P := by
  intro chart _ _ b rest hr
  obtain ⟨rfl, rfl⟩ := Prod.mk.inj (Option.some.inj hr)
  exact ⟨[], rfl, h⟩

theorem bind {f : α → Parser β} (hp : Reads meets p P)
    (hf : ∀ us a, P us a → Reads meets (f a) fun vs b => R (us ++ vs) b) :
    Reads meets (p >>= f) R := by
  intro chart hc ho b rest hr
  rw [Parser.bind_apply] at hr
  obtain ⟨⟨a, mid⟩, hm, hf'⟩ := Option.bind_eq_some_iff.mp hr
  obtain ⟨us, rfl, hu⟩ := hp chart hc ho a mid hm
  rw [Chart.tokens_append] at ho
  obtain ⟨vs, rfl, hv⟩ := hf _ a hu mid hc.right ho.right b rest hf'
  exact ⟨us ++ vs, (List.append_assoc ..).symm, by simpa using hv⟩

theorem map {f : α → β} (hp : Reads meets p P) (h : ∀ ts a, P ts a → R ts (f a)) :
    Reads meets (f <$> p) R := by
  refine bind hp fun us a ha => pure ?_
  simpa using h us a ha

theorem orElse {q : Parser α} (hp : Reads meets p P) (hq : Reads meets q P) :
    Reads meets (p <|> q) P := by
  intro chart hc ho a rest hr
  rw [Parser.orElse_apply] at hr
  rcases Option.or_eq_some_iff.mp hr with hr | ⟨_, hr⟩
  · exact hp chart hc ho a rest hr
  · exact hq chart hc ho a rest hr

theorem token (accepts : Token → Bool) :
    Reads meets (Parser.token accepts) fun ts t => ts = [t] ∧ accepts t = true := by
  intro chart _ _ t rest hr
  cases chart with
  | nil => cases hr
  | cons row chart =>
    simp only [Parser.token] at hr
    split at hr
    · next ha =>
      obtain ⟨rfl, rfl⟩ := Prod.mk.inj (Option.some.inj hr)
      exact ⟨[row], rfl, rfl, ha⟩
    · cases hr

theorem rule {answer : Row → Answer} (h : ∀ row, answer row ∈ row.answers) :
    Reads meets (Parser.rule answer) meets := by
  intro chart hc _ node rest hr
  cases chart with
  | nil => cases hr
  | cons row chart =>
    simp only [Parser.rule, Option.map_eq_some_iff, Prod.exists, Prod.mk.injEq] at hr
    obtain ⟨found, count, hg, rfl, rfl⟩ := hr
    obtain ⟨_, hm⟩ := hc.1 (answer row) (h row) found count hg
    refine ⟨(row :: chart).take count, (List.take_append_drop ..).symm, ?_⟩
    simpa [Chart.tokens, List.map_take] using hm

theorem ahead (p : Parser α) : Reads meets (Parser.ahead p) fun ts _ => ts = [] := by
  intro chart _ _ u rest hr
  simp only [Parser.ahead, Option.map_eq_some_iff, Prod.mk.injEq] at hr
  obtain ⟨_, _, _, rfl⟩ := hr
  exact ⟨[], rfl, rfl⟩

theorem endOfTokens : Reads meets Parser.endOfTokens fun ts _ => ts = [] := by
  intro chart _ _ u rest hr
  cases chart with
  | nil =>
    obtain ⟨rfl, rfl⟩ := Prod.mk.inj (Option.some.inj hr)
    exact ⟨[], rfl, rfl⟩
  | cons row chart => cases hr

/-- One reading of `p`, or nothing. -/
theorem option (hp : Reads meets p P) :
    Reads meets (Parser.option p) fun ts o => Pieces P ts o.toList := by
  refine orElse (map hp fun ts a h => ?_) (pure .nil)
  simpa using Pieces.cons h .nil

theorem manyWithin (hp : Reads meets p P) (bound : Chart) :
    ∀ chart, Chart.Meets meets chart → Ordered (Chart.tokens chart) →
      ∀ items rest, Parser.manyWithin p bound chart = (items, rest) →
        ∃ taken, chart = taken ++ rest ∧ Pieces P (Chart.tokens taken) items := by
  induction bound with
  | nil =>
    intro chart _ _ items rest hr
    obtain ⟨rfl, rfl⟩ := Prod.mk.inj hr
    exact ⟨[], rfl, .nil⟩
  | cons _ bound ih =>
    intro chart hc ho items rest hr
    simp only [Parser.manyWithin] at hr
    split at hr
    · obtain ⟨rfl, rfl⟩ := Prod.mk.inj hr
      exact ⟨[], rfl, .nil⟩
    · next a mid hm =>
      obtain ⟨rfl, rfl⟩ := Prod.mk.inj hr
      obtain ⟨us, rfl, hu⟩ := hp chart hc ho a mid hm
      rw [Chart.tokens_append] at ho
      obtain ⟨vs, hv, pieces⟩ := ih mid hc.right ho.right _ _ rfl
      refine ⟨us ++ vs, ?_, by simpa using Pieces.cons hu pieces⟩
      rw [List.append_assoc, ← hv]

theorem many (hp : Reads meets p P) : Reads meets (Parser.many p) (Pieces P) := by
  intro chart hc ho items rest hr
  exact manyWithin hp chart chart hc ho items rest (Option.some.inj hr)

theorem many1 (hp : Reads meets p P) :
    Reads meets (Parser.many1 p) fun ts items => items ≠ [] ∧ Pieces P ts items := by
  refine bind hp fun us a ha => bind (many hp) fun vs items pieces => pure ?_
  exact ⟨List.cons_ne_nil _ _, by simpa using Pieces.cons ha pieces⟩

end Reads

inductive SeparatedBy (between : List Token → Prop) (each : List Token → α → Prop) :
    List Token → List α → Prop where
  | one {us a} : each us a → SeparatedBy between each us [a]
  | more {us gap ts a items} : each us a → between gap → SeparatedBy between each ts items →
      SeparatedBy between each (us ++ (gap ++ ts)) (a :: items)

theorem SeparatedBy.of_pieces {between : List Token → Prop} {each : List Token → α → Prop}
    {us vs : List Token} {a : α} {items : List α} (first : each us a)
    (rest : Pieces (fun ts a => ∃ gap us, ts = gap ++ us ∧ between gap ∧ each us a) vs items) :
    SeparatedBy between each (us ++ vs) (a :: items) := by
  induction rest generalizing us a with
  | nil => simpa using SeparatedBy.one first
  | cons piece _ ih =>
    obtain ⟨gap, ws, rfl, hg, hw⟩ := piece
    rw [List.append_assoc]
    exact .more first hg (ih hw)

namespace Reads

variable {meets : List Token → Node → Prop} {p : Parser α} {separator : Parser β}
  {P : List Token → α → Prop} {R : List Token → β → Prop}

theorem separated1 (hp : Reads meets p P) (hs : Reads meets separator R) :
    Reads meets (Parser.separated1 p separator) (SeparatedBy (fun ts => ∃ b, R ts b) P) := by
  refine bind hp fun us a ha => ?_
  refine bind (many (P := fun ts a => ∃ gap us, ts = gap ++ us ∧ (∃ b, R gap b) ∧ P us a)
    (bind hs fun gap b hb => hp.mono fun ws w _ hw => ?_)) fun vs items rest => pure ?_
  · exact ⟨gap, ws, rfl, ⟨b, hb⟩, hw⟩
  · simpa using SeparatedBy.of_pieces ha rest

theorem separated (hp : Reads meets p P) (hs : Reads meets separator R) :
    Reads meets (Parser.separated p separator) fun ts items =>
      (ts = [] ∧ items = []) ∨ SeparatedBy (fun ts => ∃ b, R ts b) P ts items :=
  orElse ((separated1 hp hs).mono fun _ _ _ h => .inr h) (pure (.inl ⟨rfl, rfl⟩))

end Reads

end CellBindings
