import CellBindings.Proofs.SteadyArguments

/-!
Blocks at a seam. A block can be read from any tokens, so it alone may run into the seam: it goes on
where more follows. A block that leaves nothing unread and stops before the end of the tokens is
carried over, which is to say that the other reading finds the same block. Its statements start
where constructs are complete, for a construct cut off would have been left unread.
-/

namespace CellBindings

open CellBindings.Parser Grammar

namespace Node

theorem hasErrors_eq (node : Node) :
    node.hasErrors = (node.kind == .error || node.children.any hasErrors) := by
  unfold hasErrors
  rw [preorder_eq, preorderAll_eq, List.any_cons, List.any_flatMap]

end Node

theorem hasErrors_unread (tokens : List Token) : (unread tokens).hasErrors = true := by
  rw [Node.hasErrors_eq]
  rfl

theorem hasErrors_placeBlock (body : Node) (offset : Nat) :
    (placeBlock body offset).hasErrors = body.hasErrors := by
  unfold placeBlock
  split
  · rw [Node.hasErrors_eq, Node.hasErrors_eq body]
  · rfl

theorem dropWhile_ofTokens (accepts : Token → Bool) (ts : List Token) :
    ((Chart.ofTokens ts).dropWhile fun row => accepts row.token) =
      Chart.ofTokens (ts.dropWhile accepts) := by
  induction ts with
  | nil => rfl
  | cons t ts ih =>
    by_cases accepted : accepts t = true
    · rw [ofTokens_cons, List.dropWhile_cons_of_pos (by rwa [build_token]), ih,
        List.dropWhile_cons_of_pos accepted]
    · rw [ofTokens_cons, List.dropWhile_cons_of_neg (by rwa [build_token]),
        List.dropWhile_cons_of_neg accepted, ofTokens_cons]

abbrev Chart.unseparated (chart : Chart) : Chart :=
  chart.dropWhile fun row => isSeparator row.token

theorem many_separator (chart : Chart) :
    ∃ items, many separator chart = some (items, Chart.unseparated chart) :=
  many_token isSeparator chart

def nextItem (item : Parser Node) : Parser Node := do
  let _ ← many1 separator
  item

section NextItem

variable {item : Parser Node} {row : Row} {rest : Chart}

theorem nextItem_separator (h : isSeparator row.token = true) :
    nextItem item (row :: rest) = item (Chart.unseparated (row :: rest)) := by
  obtain ⟨items, found⟩ := many_separator rest
  have first : many1 separator (row :: rest) =
      some (row.token :: items, Chart.unseparated rest) :=
    bind_eq_some.mpr ⟨row.token, rest, by simp [separator, token, h],
      bind_eq_some.mpr ⟨items, _, found, rfl⟩⟩
  have same : Chart.unseparated (row :: rest) = Chart.unseparated rest :=
    List.dropWhile_cons_of_pos (by simpa using h)
  rw [nextItem, bind_apply, first, same]
  rfl

theorem nextItem_other (h : isSeparator row.token = false) :
    nextItem item (row :: rest) = none := by
  refine bind_eq_none.mpr (.inl (bind_eq_none.mpr (.inl ?_)))
  simp [separator, token, h]

end NextItem

theorem block_eq_some {chart rest : Chart} {body : Node} :
    block chart = some (body, rest) ↔ ∃ items mid,
      separated blockItem (many1 separator) (Chart.unseparated chart) = some (items, mid) ∧
      rest = Chart.unseparated mid ∧ body = .wrap .block items := by
  obtain ⟨before, hb⟩ := many_separator chart
  constructor
  · intro found
    obtain ⟨_, start, first, found⟩ := bind_eq_some.mp found
    obtain ⟨items, mid, second, found⟩ := bind_eq_some.mp found
    obtain ⟨_, last, third, found⟩ := bind_eq_some.mp found
    obtain ⟨rfl, rfl⟩ := pure_eq_some.mp found
    obtain ⟨_, behind⟩ := many_separator mid
    rw [hb] at first
    rw [behind] at third
    obtain ⟨_, rfl⟩ := Prod.mk.inj (Option.some.inj first)
    obtain ⟨_, rfl⟩ := Prod.mk.inj (Option.some.inj third)
    exact ⟨items, mid, second, rfl, rfl⟩
  · rintro ⟨items, mid, found, rfl, rfl⟩
    obtain ⟨after, ha⟩ := many_separator mid
    exact bind_eq_some.mpr ⟨before, _, hb, bind_eq_some.mpr ⟨items, mid, found,
      bind_eq_some.mpr ⟨after, _, ha, rfl⟩⟩⟩

theorem block_total (chart : Chart) : ∃ body rest, block chart = some (body, rest) := by
  obtain ⟨items, mid, found⟩ := separated_total blockItem (many1 separator)
    (Chart.unseparated chart)
  exact ⟨_, _, block_eq_some.mpr ⟨items, mid, found, rfl, rfl⟩⟩

namespace Seam

variable {α β : Type} {s : Seam} {place : List Token → Prop} {n gap : Nat}

/-- A reading that ends at the seam, if it is good and stops well, is carried over: the reading that
goes on finds the same. -/
def Carries (s : Seam) (place : List Token → Prop) (n gap : Nat) (good : α → Prop)
    (stop : Chart → Prop) (p : Parser α) : Prop :=
  ∀ us, us <:+ s.front → us.length < n → place us → ∀ a rest,
    p (s.alone us) = some (a, rest) → good a → stop rest →
      ∃ vs, vs <:+ us ∧ vs.length + gap ≤ us.length ∧ rest = s.alone vs ∧
        p (s.joined us) = some (a, s.joined vs)

def Refuses (s : Seam) (place : List Token → Prop) (n : Nat) (p : Parser α) : Prop :=
  ∀ us, us <:+ s.front → us.length < n → place us → p (s.alone us) = none → p (s.joined us) = none

section Combinators

variable {p q : Parser α} {f : α → Parser β} {good : α → Prop} {good' : β → Prop}
  {stop stop' : Chart → Prop}

theorem On.carries (h : s.On place n gap p) : s.Carries place n gap good stop p := by
  intro us suffix length here a rest found _ _
  cases h us suffix length here with
  | fails none_here => rw [none_here] at found; cases found
  | finds below shorter found_here found_there =>
    rw [found_here] at found
    obtain ⟨rfl, rfl⟩ := Prod.mk.inj (Option.some.inj found)
    exact ⟨_, below, shorter, rfl, found_there⟩

theorem On.refuses (h : s.On place n gap p) : s.Refuses place n p := by
  intro us suffix length here failed
  cases h us suffix length here with
  | fails _ there => exact there
  | finds _ _ found => rw [found] at failed; cases failed

/-- What follows has to be good and stop well only if the first part was and did. -/
theorem Carries.bind (hp : s.Carries place n gap good stop p)
    (hf : ∀ a, s.Carries (fun _ => True) n 0 good' stop' (f a))
    (keeps : ∀ a chart b rest, f a chart = some (b, rest) → good' b → stop' rest →
      good a ∧ stop chart) :
    s.Carries place n gap good' stop' (p >>= f) := by
  intro us suffix length here b rest found good_b stops
  obtain ⟨a, mid, first, second⟩ := bind_eq_some.mp found
  obtain ⟨good_a, stops_mid⟩ := keeps a mid b rest second good_b stops
  obtain ⟨vs, below, shorter, rfl, there⟩ := hp us suffix length here a mid first good_a stops_mid
  obtain ⟨ws, below', shorter', rfl, there'⟩ := hf a vs (below.trans suffix) (by omega) trivial
    b rest second good_b stops
  exact ⟨ws, below'.trans below, by omega, rfl, bind_eq_some.mpr ⟨a, _, there, there'⟩⟩

theorem On.bind_carries (hp : s.On place n gap p)
    (hf : ∀ a, s.Carries (fun _ => True) n 0 good' stop' (f a)) :
    s.Carries place n gap good' stop' (p >>= f) := by
  have carried : s.Carries place n gap (fun _ => True) (fun _ => True) p := hp.carries
  exact carried.bind hf fun _ _ _ _ _ _ _ => ⟨trivial, trivial⟩

theorem Carries.sooner (h : s.Carries place (n + 1) gap good stop p) :
    s.Carries place n gap good stop p :=
  fun us suffix length here => h us suffix (by omega) here

theorem Carries.give {g : α → β} (hp : s.Carries place n gap good stop p)
    (keeps : ∀ a, good' (g a) → good a) :
    s.Carries place n gap good' stop (p >>= fun a => Pure.pure (g a)) := by
  refine hp.bind (fun a => (firm_pure (g a)).carries) fun a chart b rest found good_b stops => ?_
  obtain ⟨rfl, rfl⟩ := pure_eq_some.mp found
  exact ⟨keeps a good_b, stops⟩

theorem Leads.bind_carries (hp : s.Leads p)
    (hf : ∀ a, s.Carries (fun us => Complete (us ++ s.ending)) n 0 good' stop' (f a)) :
    s.Carries (fun _ => True) (n + 1) 1 good' stop' (p >>= f) := by
  intro us suffix length _ b rest found good_b stops
  obtain ⟨a, mid, first, second⟩ := bind_eq_some.mp found
  cases (hp us).1 with
  | fails none_here => rw [none_here] at first; cases first
  | @finds a' vs below shorter found_here found_there =>
    rw [found_here] at first
    obtain ⟨rfl, rfl⟩ := Prod.mk.inj (Option.some.inj first)
    obtain ⟨t, rfl, fresh⟩ := (hp us).2 a' vs found_here
    simp only [List.length_cons] at length
    obtain ⟨ws, below', shorter', rfl, there⟩ := hf a' vs (below.trans suffix) (by omega)
      (fresh.complete suffix) b rest second good_b stops
    refine ⟨ws, below'.trans below, by omega, rfl, bind_eq_some.mpr ⟨a', _, found_there, there⟩⟩

theorem Carries.option (hp : s.Carries place n gap good stop p) (hr : s.Refuses place n p) :
    s.Carries place n 0 (fun o => ∀ a ∈ o, good a) stop (Parser.option p) := by
  intro us suffix length here o rest found good_o stops
  rw [option_apply] at found ⊢
  cases first : p (s.alone us) with
  | none =>
    rw [first] at found
    rw [hr us suffix length here first]
    obtain ⟨rfl, rfl⟩ := Prod.mk.inj (Option.some.inj found)
    exact ⟨us, List.suffix_rfl, Nat.le_refl _, rfl, rfl⟩
  | some result =>
    rw [first] at found
    obtain ⟨rfl, rfl⟩ := Prod.mk.inj (Option.some.inj found)
    obtain ⟨vs, below, shorter, same, there⟩ :=
      hp us suffix length here result.1 result.2 first (good_o _ rfl) stops
    exact ⟨vs, below, by omega, same, by rw [there]; rfl⟩

section Rounds

/-! Each round is carried over since another one follows, and the last since all stop well. -/

variable (hp : s.Carries (fun _ => True) n 1 good stop' p) (empty : p [] = none)
  (again : ∀ chart a rest, p chart = some (a, rest) → stop' chart)
  (last : ∀ chart, stop chart → stop' chart)
  (hr : ∀ us, us <:+ s.front → us.length < n → stop (s.alone us) → p (s.alone us) = none →
    p (s.joined us) = none)

include again last in
/-- The next round, or the end, says that what comes before it stops well. -/
theorem stops_before_rounds {bound mid rest : Chart} {items : List α}
    (more : Parser.manyWithin p bound mid = (items, rest)) (stops : stop rest) : stop' mid := by
  cases next : p mid with
  | some result => exact again mid result.1 result.2 next
  | none =>
    rw [manyWithin_of_none next] at more
    obtain ⟨_, rfl⟩ := Prod.mk.inj more
    exact last mid stops

include hp empty again last hr

/-- Within any bounds that leave room, the rounds up to the seam are those of the other reading. -/
theorem Carries.manyWithin {us : List Token} (suffix : us <:+ s.front) (length : us.length < n)
    {bound rest : Chart} (enough : (s.alone us).length ≤ bound.length) {items : List α}
    (found : Parser.manyWithin p bound (s.alone us) = (items, rest))
    (good_items : ∀ a ∈ items, good a) (stops : stop rest) :
    ∃ vs, vs <:+ us ∧ rest = s.alone vs ∧ ∀ bound' : Chart, us.length ≤ bound'.length →
      Parser.manyWithin p bound' (s.joined us) = (items, s.joined vs) := by
  induction hl : us.length using Nat.strongRecOn generalizing us bound items with
  | ind k ih =>
    cases first : p (s.alone us) with
    | none =>
      rw [manyWithin_of_none first] at found
      obtain ⟨rfl, rfl⟩ := Prod.mk.inj found
      have there := hr us suffix length stops first
      exact ⟨us, List.suffix_rfl, rfl, fun bound' _ => manyWithin_of_none there bound'⟩
    | some result =>
      obtain ⟨a, mid⟩ := result
      cases bound with
      | nil =>
        have nothing : s.alone us = [] := List.length_eq_zero_iff.mp (by simpa using enough)
        rw [nothing, empty] at first
        cases first
      | cons _ bound =>
        rcases more : Parser.manyWithin p bound mid with ⟨items', last'⟩
        simp only [Parser.manyWithin, first, more] at found
        obtain ⟨rfl, rfl⟩ := Prod.mk.inj found
        obtain ⟨vs, below, shorter, rfl, there⟩ := hp us suffix length trivial a mid first
          (good_items a (by simp)) (stops_before_rounds again last more stops)
        have room : (s.alone vs).length ≤ bound.length := by
          simp only [alone, length_ofTokens, List.length_append, List.length_cons] at enough ⊢
          omega
        obtain ⟨ws, below', same, there'⟩ := ih vs.length (by omega) (below.trans suffix) (by omega)
          room more (fun b hb => good_items b (by simp [hb])) rfl
        refine ⟨ws, below'.trans below, same, fun bound' enough' => ?_⟩
        cases bound' with
        | nil =>
          simp only [List.length_nil] at enough'
          omega
        | cons _ bound' =>
          simp only [List.length_cons] at enough'
          simp [Parser.manyWithin, there, there' bound' (by omega)]

theorem Carries.many :
    s.Carries place n 0 (fun items => ∀ a ∈ items, good a) stop (Parser.many p) := by
  intro us suffix length _ items rest found good_items stops
  have within : Parser.manyWithin p (s.alone us) (s.alone us) = (items, rest) :=
    Option.some.inj found
  obtain ⟨vs, below, rfl, there⟩ := hp.manyWithin empty again last hr suffix length (Nat.le_refl _)
    within good_items stops
  refine ⟨vs, below, below.length_le, rfl, congrArg some ?_⟩
  exact there (s.joined us) (by simp [joined, length_ofTokens])

end Rounds

end Combinators

/-- The separators in front run into the seam, or end before it in both readings. -/
theorem unseparated_cases (us : List Token) :
    Chart.unseparated (s.alone us) = [] ∨
      ∃ t vs, us.dropWhile isSeparator = t :: vs ∧ isSeparator t = false ∧
        Chart.unseparated (s.alone us) = s.alone (t :: vs) ∧
        Chart.unseparated (s.joined us) = s.joined (t :: vs) := by
  unfold Chart.unseparated alone joined
  simp only [dropWhile_ofTokens, List.dropWhile_append]
  cases here : us.dropWhile isSeparator with
  | nil =>
    have ends : s.ending.dropWhile isSeparator = [] := by
      have all := s.breaks
      generalize s.ending = ending at all
      induction ending with
      | nil => rfl
      | cons t rest ih =>
        have separates : isSeparator t = true := by simp [isSeparator, all t (by simp)]
        rw [List.dropWhile_cons_of_pos separates]
        exact ih fun u hu => all u (by simp [hu])
    exact .inl (by simp [ends]; rfl)
  | cons t vs =>
    have refused := List.head?_dropWhile_not isSeparator us
    rw [here] at refused
    exact .inr ⟨t, vs, rfl, refused, by simp, by simp⟩

def Clean (node : Node) : Prop := node.hasErrors = false

theorem ordered_alone {us : List Token} (suffix : us <:+ s.front) : Ordered (us ++ s.ending) := by
  obtain ⟨front, split⟩ := suffix
  have ordered := s.ordered_ending
  rw [← split, List.append_assoc] at ordered
  exact ordered.right

theorem ordered_joined {us : List Token} (suffix : us <:+ s.front) : Ordered (us ++ s.more) := by
  obtain ⟨front, split⟩ := suffix
  have ordered := s.ordered_more
  rw [← split, List.append_assoc] at ordered
  exact ordered.right

/-- A rule that leaves nothing unread has started where what opens is complete. -/
theorem carries_rule {answer : Row → Answer} (heads : Heads (rule answer))
    (steady : s.Steady n 1 (rule answer)) :
    s.Carries (fun _ => True) n 1 Clean (fun _ => True) (rule answer) := by
  intro us suffix length _ node rest found clean _
  have complete : Complete (us ++ s.ending) := by
    intro opens
    have ordered := ordered_alone suffix
    unfold alone at found
    cases here : us ++ s.ending with
    | nil => simp [here] at opens
    | cons t ts =>
      rw [here] at found opens ordered
      exact heads t ts ordered (by simpa using opens) node rest found clean
  have carries : s.Carries _ n 1 Clean (fun _ => True) (rule answer) := steady.carries
  exact carries us suffix length complete node rest found clean trivial

/-- What may follow a statement in a block follows in both readings. -/
theorem ahead_joined {us : List Token} {rest : Chart} {accepts : Token → Bool}
    (separates : ∀ t : Token, t.kind = .newline → accepts t = true)
    (found : ahead (token accepts) (s.alone us) = some ((), rest)) :
    ahead (token accepts) (s.joined us) = some ((), s.joined us) := by
  cases us with
  | nil =>
    obtain ⟨row, rest, hk, there⟩ := s.joined_nil
    rw [there]
    simp [ahead, token, separates _ hk]
  | cons t us =>
    obtain ⟨row, hr, here⟩ := s.alone_cons t us
    obtain ⟨row', hr', there⟩ := s.joined_cons t us
    rw [here] at found
    rw [there]
    by_cases accepted : accepts t = true
    · simp [ahead, token, hr', accepted]
    · simp [ahead, token, hr, accepted] at found

section Blocks

variable (known : s.Known n)
include known

/-- A statement that is followed as it has to be. What else is found is left unread. -/
theorem carries_item {follow : Parser Unit} {accepts : Token → Bool}
    (followed : ∀ us rest, follow (s.alone us) = some ((), rest) →
      rest = s.alone us ∧ follow (s.joined us) = some ((), s.joined us)) :
    s.Carries (fun _ => True) n 1 Clean (fun _ => True)
      ((do
        let node ← rule Row.statement
        follow
        return node) <|>
      (do
        let tokens ← many1 (token accepts)
        return unread tokens)) := by
  intro us suffix length _ node rest found clean _
  rcases orElse_eq_some.mp found with found | ⟨_, found⟩
  · obtain ⟨first, mid, asked, found⟩ := bind_eq_some.mp found
    obtain ⟨⟨⟩, last, next, found⟩ := bind_eq_some.mp found
    obtain ⟨rfl, rfl⟩ := pure_eq_some.mp found
    obtain ⟨vs, below, shorter, rfl, there⟩ := carries_rule heads_rules.statement known.statement
      us suffix length trivial first mid asked clean trivial
    obtain ⟨rfl, next'⟩ := followed vs last next
    refine ⟨vs, below, shorter, rfl, orElse_eq_some.mpr (.inl ?_)⟩
    exact bind_eq_some.mpr ⟨first, _, there, bind_eq_some.mpr ⟨(), _, next', rfl⟩⟩
  · obtain ⟨tokens, mid, _, found⟩ := bind_eq_some.mp found
    obtain ⟨rfl, _⟩ := pure_eq_some.mp found
    rw [Clean, hasErrors_unread] at clean
    cases clean

theorem carries_blockItem : s.Carries (fun _ => True) n 1 Clean (fun _ => True) blockItem := by
  refine carries_item known fun us rest next => ?_
  obtain ⟨rfl, _⟩ := ahead_eq_some next
  exact ⟨rfl, ahead_joined (by simp +contextual [isSeparator]) next⟩

omit known in
/-- Separators in front do not keep an item from being carried over. -/
theorem carries_nextItem {item : Parser Node} (empty : item [] = none)
    (carried : s.Carries (fun _ => True) n 1 Clean (fun _ => True) item) :
    s.Carries (fun _ => True) n 1 Clean (fun _ => True) (nextItem item) := by
  intro us suffix length _ node rest found clean _
  cases us with
  | nil =>
    -- behind the seam there is nothing but separators
    rcases s.alone_nil with here | ⟨row, last, hk, here⟩
    · rw [here] at found
      cases found
    · rw [here, nextItem_separator (by simp [isSeparator, hk]), ← here] at found
      rcases s.unseparated_cases [] with nothing | ⟨t, vs, drop, _⟩
      · rw [nothing, empty] at found
        cases found
      · cases drop
  | cons t us =>
    obtain ⟨row, hr, here⟩ := s.alone_cons t us
    obtain ⟨row', hr', there⟩ := s.joined_cons t us
    by_cases separates : isSeparator t = true
    · rw [here, nextItem_separator (by rwa [hr]), ← here] at found
      rw [there, nextItem_separator (by rwa [hr']), ← there]
      rcases s.unseparated_cases (t :: us) with nothing | ⟨u, vs, drop, _, same, same'⟩
      · rw [nothing, empty] at found
        cases found
      · rw [same] at found
        rw [same']
        have below : u :: vs <:+ t :: us := drop ▸ List.dropWhile_suffix _
        have := below.length_le
        obtain ⟨ws, below', shorter, rest_eq, found'⟩ := carried (u :: vs) (below.trans suffix)
          (by omega) trivial node rest found clean trivial
        exact ⟨ws, below'.trans below, by omega, rest_eq, found'⟩
    · rw [here, nextItem_other (by simpa [hr] using separates)] at found
      cases found

end Blocks

/-- A block item that fails has met a word that ends the block. -/
theorem blockItem_fails {t : Token} {us : List Token} (suffix : t :: us <:+ s.front)
    (other : isSeparator t = false) (failed : blockItem (s.alone (t :: us)) = none) :
    blockItem (s.joined (t :: us)) = none := by
  obtain ⟨row, hr, here⟩ := s.alone_cons t us
  obtain ⟨row', hr', there⟩ := s.joined_cons t us
  have ends : isBlockEnd t = true := by
    obtain ⟨_, failed⟩ := orElse_eq_none.mp failed
    rcases bind_eq_none.mp failed with failed | ⟨_, _, _, failed⟩
    · have refused := token_eq_none.mp (many1_eq_none failed) row (by rw [here]; rfl)
      simpa [hr, other] using refused
    · cases failed
  have stops : t.kind ∈ Token.Kind.stops := by
    simp only [isBlockEnd, Token.isKeyword, Bool.or_eq_true, beq_iff_eq] at ends
    rcases ends with (((h | h) | h) | h) | h
    all_goals simp [Token.Kind.stops, h]
  refine orElse_eq_none.mpr ⟨bind_eq_none.mpr (.inl ?_), bind_eq_none.mpr (.inl ?_)⟩
  · have ordered := ordered_joined suffix
    exact (rules_fail ordered (by simpa using stops)).statement
  · refine bind_eq_none.mpr (.inl (token_eq_none.mpr fun first head => ?_))
    rw [there] at head
    cases head
    simp [hr', ends]

/-- Behind separators that end before the seam, another item is found in both readings or in
neither. -/
theorem nextItem_fails {us : List Token} (suffix : us <:+ s.front)
    (stops : Chart.unseparated (s.alone us) ≠ [])
    (failed : nextItem blockItem (s.alone us) = none) :
    nextItem blockItem (s.joined us) = none := by
  rcases s.unseparated_cases us with nothing | ⟨u, vs, drop, other, same, same'⟩
  · exact absurd nothing stops
  cases us with
  | nil => cases drop
  | cons t us =>
    obtain ⟨row, hr, here⟩ := s.alone_cons t us
    obtain ⟨row', hr', there⟩ := s.joined_cons t us
    by_cases separates : isSeparator t = true
    · rw [here, nextItem_separator (by rwa [hr]), ← here, same] at failed
      rw [there, nextItem_separator (by rwa [hr']), ← there, same']
      have below : u :: vs <:+ t :: us := drop ▸ List.dropWhile_suffix _
      exact blockItem_fails (below.trans suffix) other failed
    · rw [there, nextItem_other (by simpa [hr'] using separates)]

/-- The items of a block, from one that is no separator on. -/
theorem carries_items (known : s.Known n) :
    s.Carries (fun us => ∃ t vs, us = t :: vs ∧ isSeparator t = false) n 0
      (fun items => ∀ node ∈ items, Clean node) (fun chart => Chart.unseparated chart ≠ [])
      (separated blockItem (many1 separator)) := by
  have more : s.Carries (fun _ => True) n 0 (fun items => ∀ node ∈ items, Clean node)
      (fun chart => Chart.unseparated chart ≠ []) (many (nextItem blockItem)) :=
    (carries_nextItem rfl (carries_blockItem known)).many rfl (fun _ _ _ _ => trivial)
      (fun _ _ => trivial) fun us suffix _ => nextItem_fails suffix
  have list : s.Carries (fun _ => True) n 1 (fun items => ∀ node ∈ items, Clean node)
      (fun chart => Chart.unseparated chart ≠ []) (separated1 blockItem (many1 separator)) := by
    refine (carries_blockItem known).bind (fun first => more.give fun rest clean node mem => ?_) ?_
    · exact clean node (by simp [mem])
    · intro first chart items rest found clean _
      obtain ⟨others, _, _, found⟩ := bind_eq_some.mp found
      obtain ⟨rfl, _⟩ := pure_eq_some.mp found
      exact ⟨clean first (by simp), trivial⟩
  intro us suffix length start items rest found clean stops
  obtain ⟨t, vs, rfl, other⟩ := start
  rcases orElse_eq_some.mp found with found | ⟨failed, found⟩
  · obtain ⟨ws, below, shorter, same, there⟩ := list _ suffix length trivial items rest found clean
      stops
    exact ⟨ws, below, by omega, same, orElse_eq_some.mpr (.inl there)⟩
  · obtain ⟨rfl, rfl⟩ := pure_eq_some.mp found
    have none_here : blockItem (s.alone (t :: vs)) = none := by
      rcases bind_eq_none.mp failed with failed | ⟨_, _, _, failed⟩
      · exact failed
      · rcases bind_eq_none.mp failed with failed | ⟨_, _, _, failed⟩
        · cases failed
        · cases failed
    have none_there := blockItem_fails suffix other none_here
    refine ⟨t :: vs, List.suffix_rfl, Nat.le_refl _, rfl, orElse_eq_some.mpr (.inr ⟨?_, rfl⟩)⟩
    exact bind_eq_none.mpr (.inl none_there)

/-- A block without anything unread that stops before the end is carried over. -/
theorem carries_block (known : s.Known n) :
    s.Carries (fun _ => True) n 0 Clean (· ≠ []) block := by
  intro us suffix length _ body rest found clean stops
  obtain ⟨items, mid, read, rfl, rfl⟩ := block_eq_some.mp found
  rcases s.unseparated_cases us with nothing | ⟨t, vs, drop, other, same, same'⟩
  · -- nothing but separators up to the end
    rw [nothing] at read
    obtain ⟨rfl, rfl⟩ := Prod.mk.inj (Option.some.inj read)
    exact absurd rfl stops
  have below : t :: vs <:+ us := drop ▸ List.dropWhile_suffix _
  have shorter := below.length_le
  rw [same] at read
  obtain ⟨ws, below', shorter', rfl, there⟩ := carries_items known _ (below.trans suffix) (by omega)
    ⟨t, vs, rfl, other⟩ items mid read (fun node mem => Node.hasErrors_wrap clean mem) stops
  rcases s.unseparated_cases ws with nothing | ⟨u, xs, drop', _, last, last'⟩
  · exact absurd nothing stops
  have below'' : u :: xs <:+ ws := drop' ▸ List.dropWhile_suffix _
  have shorter'' := below''.length_le
  refine ⟨u :: xs, below''.trans (below'.trans below), by omega, last, ?_⟩
  exact block_eq_some.mpr ⟨items, _, by rw [same', there], last'.symm, rfl⟩

end Seam

end CellBindings
