import Mathlib.Data.List.Infix
import CellBindings.Proofs.OpenedConstructs

/-!
Parsers at a seam. Some tokens are read twice: once with at most line breaks behind them, once with
a line break and whatever follows. A parser agrees at a position if both readings give the same
result and stop at the same place before the seam, or both fail. Where a construct may open but is
not complete the readings can differ, since the one that goes on may find its end. Such a position
is asked for only behind a value, and tokens that are sealed do not let a macro ask for it there, or
behind the colon of a range; where no range can be, the colon quotes the word behind it.
-/

namespace CellBindings

open CellBindings.Parser Grammar

theorem manyWithin_of_none {α : Type} {p : Parser α} {chart : Chart} (h : p chart = none)
    (bound : Chart) : manyWithin p bound chart = ([], chart) := by
  cases bound with
  | nil => rfl
  | cons _ bound => simp [manyWithin, h]

def Complete (ts : List Token) : Prop := ts.head?.any Token.opens = true → Opens ts

instance (ts : List Token) : Decidable (Complete ts) := inferInstanceAs (Decidable (_ → _))

inductive ArgumentAt (ts : List Token) : List Token → Prop where
  | first : ArgumentAt ts ts
  | next {us vs node} : ArgumentAt ts us →
      rule Row.statement (Chart.ofTokens us) = some (node, Chart.ofTokens vs) → ArgumentAt ts vs

def OperandBefore (ts rest : List Token) : Prop :=
  ∃ us ∈ ts.tails, (chain [.plus, .times, .shift] (Chart.ofTokens us)).map (·.2.tokens) = some rest

instance (ts rest : List Token) : Decidable (OperandBefore ts rest) :=
  inferInstanceAs (Decidable (∃ us ∈ ts.tails, _))

/-- What is open in the tokens is closed in them. A word that opens a construct may stand for
something else only behind a value, as in a generator, and there no argument of a macro starts, or
behind a colon that no range can have, which quotes it. -/
structure Sealed (ts : List Token) : Prop where
  opened : ∀ front back, ts = front ++ back → Complete back ∨
    (front.getLast?.any Token.endsValue = true ∧ back.head?.any (·.isKeyword .doKw) = false) ∨
    ∃ colon ∈ front.getLast?, colon.isOperator [':'] = true ∧ ¬ OperandBefore ts (colon :: back)
  argued : ∀ front t back, ts = front ++ t :: back → t.kind = .macroName →
    argumentList (tight '(') (Chart.ofTokens back) = none → ∀ us, ArgumentAt back us → Complete us

theorem ArgumentAt.suffix {ts us : List Token} (ordered : Ordered ts) (h : ArgumentAt ts us) :
    us <:+ ts := by
  induction h with
  | first => exact List.suffix_rfl
  | @next us vs node _ found ih =>
    have below : Ordered us := by
      obtain ⟨front, rfl⟩ := ih
      exact ordered.right
    obtain ⟨taken, split, _⟩ := Reads.rule (fun row => by simp [Row.answers]) (Chart.ofTokens us)
      (ofTokens_meets below) (by rwa [tokens_ofTokens]) node _ found
    have tokens := congrArg Chart.tokens split
    simp only [Chart.tokens_append, tokens_ofTokens] at tokens
    exact List.IsSuffix.trans ⟨Chart.tokens taken, tokens.symm⟩ ih

/-- Tokens are sealed if each construct is complete or stands behind a value or a colon, and is
complete if a macro stands somewhere before it. -/
theorem Sealed.of_positions {ts : List Token} (ordered : Ordered ts)
    (opened : ∀ k ≤ ts.length, Complete (ts.drop k) ∨
      ((ts.take k).getLast?.any Token.endsValue = true ∧
        (ts.drop k).head?.any (·.isKeyword .doKw) = false) ∨
      ∃ colon ∈ (ts.take k).getLast?, colon.isOperator [':'] = true ∧
        ¬ OperandBefore ts (colon :: ts.drop k))
    (argued : ∀ k ≤ ts.length, (ts.take k).any (·.kind == .macroName) = true →
      Complete (ts.drop k)) : Sealed ts := by
  constructor
  · rintro front back rfl
    simpa using opened front.length (by simp)
  · rintro front t back rfl macro_t _ us argument
    obtain ⟨between, rfl⟩ := argument.suffix ordered.right.tail
    have split : front ++ t :: (between ++ us) = (front ++ t :: between) ++ us := by simp
    have complete := argued (front ++ t :: between).length (by simp)
    rw [split, List.take_left, List.drop_left] at complete
    exact complete (by simp [macro_t])

/-- Tokens with two endings: at most line breaks, or a line break and more. -/
structure Seam where
  front : List Token
  ending : List Token
  more : List Token
  breaks : ∀ t ∈ ending, t.kind = .newline
  more_break : ∃ t rest, more = t :: rest ∧ t.kind = .newline
  ordered_ending : Ordered (front ++ ending)
  ordered_more : Ordered (front ++ more)
  sealed_ending : Sealed (front ++ ending)

namespace Seam

variable {α β : Type} (s : Seam)

def alone (us : List Token) : Chart := Chart.ofTokens (us ++ s.ending)

def joined (us : List Token) : Chart := Chart.ofTokens (us ++ s.more)

inductive Agrees (gap : Nat) (p : Parser α) (us : List Token) : Prop where
  | fails : p (s.alone us) = none → p (s.joined us) = none → Agrees gap p us
  | finds {a vs} : vs <:+ us → vs.length + gap ≤ us.length →
      p (s.alone us) = some (a, s.alone vs) → p (s.joined us) = some (a, s.joined vs) →
      Agrees gap p us

/-- The readings agree at each such position before the seam with fewer than `n` tokens left, and
they take at least `gap` of them. -/
def On (place : List Token → Prop) (n gap : Nat) (p : Parser α) : Prop :=
  ∀ us, us <:+ s.front → us.length < n → place us → s.Agrees gap p us

def Firm (n gap : Nat) (p : Parser α) : Prop := s.On (fun _ => True) n gap p

def Steady (n gap : Nat) (p : Parser α) : Prop :=
  s.On (fun us => Complete (us ++ s.ending)) n gap p

variable {s} {place : List Token → Prop} {n gap : Nat} {p q : Parser α} {us vs : List Token}

theorem alone_cons (t : Token) (us : List Token) :
    ∃ row, row.token = t ∧ s.alone (t :: us) = row :: s.alone us :=
  ⟨_, build_token .., rfl⟩

theorem joined_cons (t : Token) (us : List Token) :
    ∃ row, row.token = t ∧ s.joined (t :: us) = row :: s.joined us :=
  ⟨_, build_token .., rfl⟩

theorem joined_nil : ∃ row rest, row.token.kind = .newline ∧ s.joined [] = row :: rest := by
  obtain ⟨t, rest, hm, hk⟩ := s.more_break
  exact ⟨Row.build t (Chart.ofTokens rest), Chart.ofTokens rest, hk, by rw [joined, hm]; rfl⟩

theorem alone_nil : s.alone [] = [] ∨
    ∃ row rest, row.token.kind = .newline ∧ s.alone [] = row :: rest := by
  cases he : s.ending with
  | nil => exact .inl (by rw [alone, he]; rfl)
  | cons t rest =>
    refine .inr ⟨Row.build t (Chart.ofTokens rest), Chart.ofTokens rest, ?_, ?_⟩
    · exact s.breaks t (by simp [he])
    · rw [alone, he]
      rfl

theorem length_ofTokens (ts : List Token) : (Chart.ofTokens ts).length = ts.length := by
  rw [← Chart.length_tokens, tokens_ofTokens]

theorem alone_injective (h : s.alone us = s.alone vs) : us = vs := by
  have tokens := congrArg Chart.tokens h
  simp only [alone, tokens_ofTokens] at tokens
  exact List.append_cancel_right tokens

def Inline (accepts : Token → Bool) : Prop := ∀ t, accepts t = true → t.kind ≠ .newline

/-- A token that is found is the next one before the seam. -/
theorem token_found {accepts : Token → Bool} (inline : Inline accepts) {t : Token}
    (found : token accepts (s.alone us) = some (t, s.alone vs)) :
    us = t :: vs ∧ accepts t = true := by
  cases us with
  | nil =>
    rcases s.alone_nil with here | ⟨row, rest, hk, here⟩
    · rw [here] at found
      cases found
    · rw [here] at found
      simp only [token] at found
      split at found
      · next accepted => exact absurd hk (inline _ accepted)
      · cases found
  | cons u us =>
    obtain ⟨row, hr, here⟩ := s.alone_cons u us
    rw [here] at found
    simp only [token, hr] at found
    split at found
    · next accepted =>
      obtain ⟨rfl, same⟩ := Prod.mk.inj (Option.some.inj found)
      exact ⟨by rw [alone_injective same], accepted⟩
    · cases found

namespace Agrees

theorem bind {f : α → Parser β} (hp : s.Agrees gap p us)
    (hf : ∀ a vs, vs <:+ us → p (s.alone us) = some (a, s.alone vs) → s.Agrees 0 (f a) vs) :
    s.Agrees gap (p >>= f) us := by
  cases hp with
  | fails here there =>
    exact .fails (bind_eq_none.mpr (.inl here)) (bind_eq_none.mpr (.inl there))
  | @finds a vs suffix length here there =>
    cases hf a vs suffix here with
    | fails here' there' =>
      exact .fails (bind_eq_none.mpr (.inr ⟨a, _, here, here'⟩))
        (bind_eq_none.mpr (.inr ⟨a, _, there, there'⟩))
    | @finds b ws suffix' length' here' there' =>
      exact .finds (suffix'.trans suffix) (by omega) (bind_eq_some.mpr ⟨a, _, here, here'⟩)
        (bind_eq_some.mpr ⟨a, _, there, there'⟩)

/-- The second choice has to agree only where the first one fails. -/
theorem orElse_of (hp : s.Agrees gap p us) (hq : p (s.alone us) = none → s.Agrees gap q us) :
    s.Agrees gap (p <|> q) us := by
  cases hp with
  | finds suffix length here there =>
    exact .finds suffix length (orElse_eq_some.mpr (.inl here)) (orElse_eq_some.mpr (.inl there))
  | fails here there =>
    cases hq here with
    | finds suffix length here' there' =>
      exact .finds suffix length (orElse_eq_some.mpr (.inr ⟨here, here'⟩))
        (orElse_eq_some.mpr (.inr ⟨there, there'⟩))
    | fails here' there' =>
      exact .fails (orElse_eq_none.mpr ⟨here, here'⟩) (orElse_eq_none.mpr ⟨there, there'⟩)

theorem orElse (hp : s.Agrees gap p us) (hq : s.Agrees gap q us) : s.Agrees gap (p <|> q) us :=
  hp.orElse_of fun _ => hq

theorem loosen (h : s.Agrees gap p us) : s.Agrees 0 p us := by
  cases h with
  | fails here there => exact .fails here there
  | finds suffix length here there => exact .finds suffix (by omega) here there

theorem pure (a : α) (us : List Token) : s.Agrees 0 (Pure.pure a : Parser α) us :=
  .finds List.suffix_rfl (Nat.le_refl _) rfl rfl

/-- A token before the seam is found in both readings. -/
theorem token {accepts : Token → Bool} (inline : Inline accepts) (us : List Token) :
    s.Agrees 1 (Parser.token accepts) us := by
  have refused : ∀ (row : Row) rest, row.token.kind = .newline →
      Parser.token accepts (row :: rest) = none := by
    intro row rest hk
    refine token_eq_none.mpr fun first hf => ?_
    cases hf
    exact Bool.eq_false_iff.mpr fun accepted => inline _ accepted hk
  cases us with
  | nil =>
    obtain ⟨row, rest, hk, there⟩ := s.joined_nil
    have there_none : Parser.token accepts (s.joined []) = none := by rw [there, refused row rest hk]
    rcases s.alone_nil with here | ⟨row', rest', hk', here⟩
    · exact .fails (by rw [here]; rfl) there_none
    · exact .fails (by rw [here, refused row' rest' hk']) there_none
  | cons t us =>
    obtain ⟨row, hr, here⟩ := s.alone_cons t us
    obtain ⟨row', hr', there⟩ := s.joined_cons t us
    by_cases accepted : accepts t = true
    · refine @finds Token s 1 _ _ t us (List.suffix_cons t us) (by simp) ?_ ?_
      · rw [here]
        simp [Parser.token, hr, accepted]
      · rw [there]
        simp [Parser.token, hr', accepted]
    · apply fails
      · rw [here]
        simp [Parser.token, hr, accepted]
      · rw [there]
        simp [Parser.token, hr', accepted]

theorem ahead (h : s.Agrees gap p us) : s.Agrees 0 (Parser.ahead p) us := by
  cases h with
  | fails here there =>
    exact .fails (by rw [Parser.ahead, here]; rfl) (by rw [Parser.ahead, there]; rfl)
  | finds _ _ here there =>
    refine @finds Unit s 0 _ us () us List.suffix_rfl (Nat.le_refl _) ?_ ?_
    · rw [Parser.ahead, here]
      rfl
    · rw [Parser.ahead, there]
      rfl

theorem option (h : s.Agrees gap p us) : s.Agrees 0 (Parser.option p) us :=
  orElse (h.bind fun a vs _ _ => pure (some a) vs).loosen (pure none us)

theorem manyWithin {reached : List Token → Prop} (us : List Token) (start : reached us)
    (hp : ∀ vs, vs <:+ us → reached vs → s.Agrees 1 p vs)
    (next : ∀ vs a ws, vs <:+ us → reached vs → p (s.alone vs) = some (a, s.alone ws) →
      reached ws) :
    ∃ items vs, vs <:+ us ∧ ∀ bound : Chart, us.length ≤ bound.length →
      Parser.manyWithin p bound (s.alone us) = (items, s.alone vs) ∧
        Parser.manyWithin p bound (s.joined us) = (items, s.joined vs) := by
  induction hl : us.length using Nat.strongRecOn generalizing us with
  | ind n ih =>
    cases hp us List.suffix_rfl start with
    | fails here there =>
      refine ⟨[], us, List.suffix_rfl, fun bound _ => ?_⟩
      exact ⟨manyWithin_of_none here bound, manyWithin_of_none there bound⟩
    | @finds a vs suffix length here there =>
      obtain ⟨items, ws, suffix', rest⟩ := ih vs.length (by omega) vs
        (next us a vs List.suffix_rfl start here) (fun ws hw => hp ws (hw.trans suffix))
        (fun ws b xs hw => next ws b xs (hw.trans suffix)) rfl
      refine ⟨a :: items, ws, suffix'.trans suffix, fun bound enough => ?_⟩
      cases bound with
      | nil =>
        simp only [List.length_nil] at enough
        omega
      | cons _ bound =>
        simp only [List.length_cons] at enough
        obtain ⟨here', there'⟩ := rest bound (by omega)
        simp [Parser.manyWithin, here, there, here', there']

/-- Repetition stops at the same place, since each round takes a token. -/
theorem many {reached : List Token → Prop} (start : reached us)
    (hp : ∀ vs, vs <:+ us → reached vs → s.Agrees 1 p vs)
    (next : ∀ vs a ws, vs <:+ us → reached vs → p (s.alone vs) = some (a, s.alone ws) →
      reached ws) :
    s.Agrees 0 (Parser.many p) us := by
  obtain ⟨items, vs, suffix, both⟩ := manyWithin us start hp next
  have here := (both (s.alone us) (by simp [alone, length_ofTokens])).1
  have there := (both (s.joined us) (by simp [joined, length_ofTokens])).2
  exact .finds suffix suffix.length_le (congrArg some here) (congrArg some there)

end Agrees

/-- Behind a token that ends no value, what opens is complete, unless the token is a colon. Behind a
colon it is complete where an operand of a range ends before it. -/
theorem complete_behind {t : Token} (suffix : t :: us <:+ s.front) (fresh : t.endsValue = false)
    (colon : t.isOperator [':'] = true →
      OperandBefore (s.front ++ s.ending) (t :: us ++ s.ending)) :
    Complete (us ++ s.ending) := by
  obtain ⟨front, split⟩ := suffix
  have whole : s.front ++ s.ending = (front ++ [t]) ++ (us ++ s.ending) := by simp [← split]
  rcases s.sealed_ending.opened _ _ whole with complete | ⟨value, _⟩ | ⟨c, last, isColon, apart⟩
  · exact complete
  · simp [fresh] at value
  · obtain rfl : t = c := by simpa using last
    exact absurd (colon isColon) apart

section Combinators

theorem On.anywhere (h : s.On (fun _ => True) n gap p) : s.On place n gap p :=
  fun us suffix length _ => h us suffix length trivial

theorem On.loosen (h : s.On place n gap p) : s.On place n 0 p :=
  fun us suffix length here => (h us suffix length here).loosen

theorem On.sooner (h : s.On place (n + 1) gap p) : s.On place n gap p :=
  fun us suffix length here => h us suffix (by omega) here

theorem On.bind {f : α → Parser β} (hp : s.On place n gap p) (hf : ∀ a, s.Firm n 0 (f a)) :
    s.On place n gap (p >>= f) := by
  intro us suffix length here
  refine (hp us suffix length here).bind fun a vs below _ => ?_
  have := below.length_le
  exact hf a vs (below.trans suffix) (by omega) trivial

theorem On.orElse (hp : s.On place n gap p) (hq : s.On place n gap q) :
    s.On place n gap (p <|> q) :=
  fun us suffix length here => (hp us suffix length here).orElse (hq us suffix length here)

theorem firm_pure (a : α) : s.Firm n 0 (Pure.pure a : Parser α) := fun us _ _ _ => .pure a us

theorem On.give {g : α → β} (hp : s.On place n gap p) :
    s.On place n gap (p >>= fun a => Pure.pure (g a)) :=
  hp.bind fun a => firm_pure (g a)

theorem On.map {f : α → β} (hp : s.On place n gap p) : s.On place n gap (f <$> p) := hp.give

theorem On.option (hp : s.On place n gap p) : s.On place n 0 (Parser.option p) :=
  fun us suffix length here => (hp us suffix length here).option

theorem On.ahead (h : s.On (fun _ => True) n gap p) : s.Firm n 0 (Parser.ahead p) :=
  fun us suffix length _ => (h us suffix length trivial).ahead

theorem On.many (h : s.On (fun _ => True) n 1 p) : s.Firm n 0 (Parser.many p) := by
  intro us suffix length _
  refine @Agrees.many _ s p us (fun _ => True) trivial (fun vs below _ => ?_)
    fun _ _ _ _ _ _ => trivial
  have := below.length_le
  exact h vs (below.trans suffix) (by omega) trivial

end Combinators

theorem firm_token {accepts : Token → Bool} (inline : Inline accepts) :
    s.Firm n 1 (token accepts) := fun us _ _ _ => .token inline us

def Fresh (t : Token) : Prop := t.endsValue = false ∧ t.isOperator [':'] = false

theorem Fresh.complete {t : Token} (fresh : Fresh t) (suffix : t :: us <:+ s.front) :
    Complete (us ++ s.ending) := by
  refine complete_behind suffix fresh.1 fun colon => ?_
  rw [fresh.2] at colon
  cases colon

def Leads (s : Seam) (p : Parser α) : Prop :=
  ∀ us, s.Agrees 1 p us ∧ ∀ a vs, p (s.alone us) = some (a, s.alone vs) →
    ∃ t, us = t :: vs ∧ Fresh t

def Leading (accepts : Token → Bool) : Prop :=
  ∀ t, accepts t = true → t.kind ≠ .newline ∧ Fresh t

theorem leads_token {accepts : Token → Bool} (leading : Leading accepts) :
    s.Leads (token accepts) := by
  have inline : Inline accepts := fun t accepted => (leading t accepted).1
  intro us
  refine ⟨.token inline us, fun t vs found => ?_⟩
  obtain ⟨here, accepted⟩ := token_found inline found
  exact ⟨t, here, (leading t accepted).2⟩

theorem Leads.orElse (hp : s.Leads p) (hq : s.Leads q) : s.Leads (p <|> q) := by
  intro us
  refine ⟨(hp us).1.orElse (hq us).1, fun a vs found => ?_⟩
  rcases orElse_eq_some.mp found with found | ⟨_, found⟩
  · exact (hp us).2 a vs found
  · exact (hq us).2 a vs found

theorem Leads.bind {f : α → Parser β} (hp : s.Leads p) (hf : ∀ a, s.Steady n 0 (f a)) :
    s.Firm (n + 1) 1 (p >>= f) := by
  intro us suffix length _
  refine (hp us).1.bind fun a vs _ found => ?_
  obtain ⟨t, rfl, fresh⟩ := (hp us).2 a vs found
  simp only [List.length_cons] at length
  exact hf a vs ((List.suffix_cons t vs).trans suffix) (by omega) (fresh.complete suffix)

theorem Leads.before {f : α → Parser β} (hp : s.Leads p) (hf : ∀ a, s.Steady n 0 (f a)) :
    s.Firm n 1 (p >>= f) :=
  (hp.bind hf).sooner

/-- One `p` or more, each but the first behind a separator. -/
theorem Leads.separated1 {separator : Parser β} (hs : s.Leads separator) (hp : s.Steady n gap p) :
    s.Steady n gap (Parser.separated1 p separator) :=
  hp.bind fun _ => (hs.before fun _ => hp.loosen).many.give

theorem Leads.separated {separator : Parser β} (hs : s.Leads separator) (hp : s.Steady n gap p) :
    s.Steady n 0 (Parser.separated p separator) :=
  (hs.separated1 hp).loosen.orElse (On.anywhere (firm_pure []))

end Seam

end CellBindings
