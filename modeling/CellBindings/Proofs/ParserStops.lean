import CellBindings.Proofs.ParserReads

/-!
Where parsers stop. A parser that takes a token each time it succeeds is repeated until it fails,
so the bound on repetition is never what ends it.
-/

namespace CellBindings

open CellBindings.Parser

section Results

variable {α β : Type} {p q : Parser α} {f : α → Parser β} {chart rest : Chart}

theorem bind_eq_some {b : β} :
    (p >>= f) chart = some (b, rest) ↔
      ∃ a mid, p chart = some (a, mid) ∧ f a mid = some (b, rest) := by
  rw [bind_apply, Option.bind_eq_some_iff]
  exact Prod.exists

theorem bind_eq_none :
    (p >>= f) chart = none ↔
      p chart = none ∨ ∃ a mid, p chart = some (a, mid) ∧ f a mid = none := by
  rw [bind_apply]
  cases p chart with
  | none => simp
  | some result =>
    obtain ⟨a, mid⟩ := result
    simp [and_assoc]

theorem orElse_eq_some {a : α} :
    (p <|> q) chart = some (a, rest) ↔
      p chart = some (a, rest) ∨ p chart = none ∧ q chart = some (a, rest) := by
  rw [orElse_apply, Option.or_eq_some_iff]

theorem orElse_eq_none : (p <|> q) chart = none ↔ p chart = none ∧ q chart = none := by
  rw [orElse_apply, Option.or_eq_none_iff]

theorem pure_eq_some {a b : α} :
    (pure a : Parser α) chart = some (b, rest) ↔ a = b ∧ chart = rest := by
  change some (a, chart) = some (b, rest) ↔ _
  simp

theorem token_eq_none {accepts : Token → Bool} :
    token accepts chart = none ↔ ∀ row ∈ chart.head?, accepts row.token = false := by
  cases chart with
  | nil => simp [token]
  | cons row chart => simp [token]

theorem ahead_eq_some {u : Unit} (h : ahead p chart = some (u, rest)) :
    chart = rest ∧ ∃ result, p chart = some result := by
  obtain ⟨result, hr, same⟩ := Option.map_eq_some_iff.mp h
  exact ⟨(Prod.mk.inj same).2, result, hr⟩

theorem dropWhile_refused {accepts : Token → Bool} (h : token accepts chart = none) :
    (chart.dropWhile fun row => accepts row.token) = chart := by
  cases chart with
  | nil => rfl
  | cons row chart =>
    exact List.dropWhile_cons_of_neg (by simp [token_eq_none.mp h row rfl])

theorem token_dropWhile (accepts : Token → Bool) (chart : Chart) :
    token accepts (chart.dropWhile fun row => accepts row.token) = none := by
  refine token_eq_none.mpr fun row hr => ?_
  have refused := List.head?_dropWhile_not (fun row : Row => accepts row.token) chart
  rwa [hr] at refused

theorem separated_total (p : Parser α) (q : Parser β) (chart : Chart) :
    ∃ items rest, separated p q chart = some (items, rest) := by
  cases h : separated1 p q chart with
  | none => exact ⟨[], chart, orElse_eq_some.mpr (.inr ⟨h, rfl⟩)⟩
  | some result => exact ⟨result.1, result.2, orElse_eq_some.mpr (.inl h)⟩

theorem many1_eq_none (h : many1 p chart = none) : p chart = none := by
  rcases bind_eq_none.mp h with h | ⟨a, mid, _, h⟩
  · exact h
  · cases h

theorem many_token (accepts : Token → Bool) (chart : Chart) :
    ∃ items, many (token accepts) chart =
      some (items, chart.dropWhile fun row => accepts row.token) := by
  have bounded : ∀ bound chart : Chart, chart.length ≤ bound.length →
      (manyWithin (token accepts) bound chart).2 =
        chart.dropWhile fun row => accepts row.token := by
    intro bound
    induction bound with
    | nil =>
      intro chart hl
      cases chart with
      | nil => rfl
      | cons row chart => simp at hl
    | cons _ bound ih =>
      intro chart hl
      cases chart with
      | nil => rfl
      | cons row chart =>
        have shorter : chart.length ≤ bound.length := by simpa using hl
        by_cases ha : accepts row.token = true
        · simp [manyWithin, token, ha, ih chart shorter]
        · simp [manyWithin, token, ha]
  refine ⟨(manyWithin (token accepts) chart chart).1, ?_⟩
  rw [many, ← bounded chart chart (Nat.le_refl _)]

theorem many1_token {accepts : Token → Bool} {items : List Token}
    (h : many1 (token accepts) chart = some (items, rest)) :
    rest = chart.dropWhile fun row => accepts row.token := by
  obtain ⟨t, mid, ht, h⟩ := bind_eq_some.mp h
  obtain ⟨more, last, hm, h⟩ := bind_eq_some.mp h
  obtain ⟨_, rfl⟩ := pure_eq_some.mp h
  obtain ⟨_, same⟩ := many_token accepts mid
  obtain ⟨_, rfl⟩ := Prod.mk.inj (Option.some.inj (hm.symm.trans same))
  cases chart with
  | nil => cases ht
  | cons row chart =>
    simp only [token] at ht
    split at ht
    · next ha =>
      obtain ⟨_, rfl⟩ := Prod.mk.inj (Option.some.inj ht)
      simp [ha]
    · cases ht

/-- A property that a parser leaves behind is left behind by any number of it. -/
theorem many_keeps {Q : Chart → Prop} (step : ∀ chart a rest, p chart = some (a, rest) → Q rest)
    {items : List α} (h : many p chart = some (items, rest)) (start : Q chart) : Q rest := by
  have bounded : ∀ bound chart : Chart, Q chart → Q (manyWithin p bound chart).2 := by
    intro bound
    induction bound with
    | nil => exact fun chart hq => hq
    | cons _ bound ih =>
      intro chart hq
      simp only [manyWithin]
      split
      · exact hq
      · next a mid hm => exact ih mid (step chart a mid hm)
  have kept := bounded chart chart start
  rwa [Option.some.inj h] at kept

end Results

/-- A parser that takes a token each time is tried until it fails. -/
theorem Reads.many_stops {α : Type} {meets : List Token → Node → Prop} {p : Parser α}
    {P : List Token → α → Prop} (hp : Reads meets p P) (taken : ∀ ts a, P ts a → ts ≠ [])
    {chart rest : Chart} (hc : Chart.Meets meets chart) (ho : Ordered (Chart.tokens chart))
    {items : List α} (h : Parser.many p chart = some (items, rest)) : p rest = none := by
  have shortens : ∀ chart, Chart.Meets meets chart → Ordered (Chart.tokens chart) →
      ∀ a rest, p chart = some (a, rest) →
        rest.length < chart.length ∧ Chart.Meets meets rest ∧ Ordered (Chart.tokens rest) := by
    intro chart hc ho a rest hr
    obtain ⟨us, rfl, hu⟩ := hp chart hc ho a rest hr
    have hn : us ≠ [] := by
      rintro rfl
      exact taken _ _ hu rfl
    rw [Chart.tokens_append] at ho
    have := List.length_pos_iff.mpr hn
    exact ⟨by simp only [List.length_append]; omega, hc.right, ho.right⟩
  have bounded : ∀ bound chart : Chart, chart.length ≤ bound.length → Chart.Meets meets chart →
      Ordered (Chart.tokens chart) → p (Parser.manyWithin p bound chart).2 = none := by
    intro bound
    induction bound with
    | nil =>
      intro chart hl hc ho
      cases hr : p chart with
      | none => exact hr
      | some result =>
        have := (shortens chart hc ho result.1 result.2 hr).1
        simp only [List.length_nil] at hl
        omega
    | cons _ bound ih =>
      intro chart hl hc ho
      simp only [Parser.manyWithin]
      split
      · next hr => exact hr
      · next a mid hr =>
        obtain ⟨shorter, hm, hom⟩ := shortens chart hc ho a mid hr
        simp only [List.length_cons] at hl
        exact ih mid (by omega) hm hom
  have stopped := bounded chart chart (Nat.le_refl _) hc ho
  rwa [Option.some.inj h] at stopped

end CellBindings
