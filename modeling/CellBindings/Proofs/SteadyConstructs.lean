import CellBindings.Proofs.CarriedBlocks

/-!
Constructs at a seam. Where a construct that may open is complete, the reading that ends at the seam
finds it whole, so its blocks and clauses are carried over and the other reading finds the same. The
rows of a matrix stand next to one another, and each stops before a semicolon or a bracket.
-/

namespace CellBindings

open CellBindings.Parser Grammar

theorem many_cases {α : Type} {p : Parser α} {chart rest : Chart} {items : List α}
    (found : many p chart = some (items, rest)) :
    rest = chart ∨ ∃ a mid, p chart = some (a, mid) := by
  cases first : p chart with
  | some result => exact .inr ⟨result.1, result.2, rfl⟩
  | none =>
    have same := Option.some.inj found
    rw [manyWithin_of_none first] at same
    exact .inl (Prod.mk.inj same).2.symm

theorem Constructs.newline {p : Parser Node} (h : Constructs p) {row : Row}
    (hk : row.token.kind = .newline) (rest : Chart) : p (row :: rest) = none := by
  rcases h row.token with opened | declined
  · simp [construct?, hk] at opened
  · exact declined row rest rfl

/-- What is closed by `end` has not reached the end of the tokens before. -/
theorem closed_eq_some {g : Token → Node} {chart rest : Chart} {node : Node}
    (found : (do let last ← keyword .endKw; return g last : Parser Node) chart =
      some (node, rest)) : chart ≠ [] ∧ ∃ last, node = g last := by
  obtain ⟨last, _, first, found⟩ := bind_eq_some.mp found
  obtain ⟨rfl, _⟩ := pure_eq_some.mp found
  refine ⟨?_, last, rfl⟩
  rintro rfl
  cases first

theorem Seam.clean_placeBlock {node body : Node} {offset : Nat} (clean : Seam.Clean node)
    (mem : placeBlock body offset ∈ node.children) : Seam.Clean body := by
  have placed := Node.hasErrors_child clean mem
  rwa [hasErrors_placeBlock] at placed

namespace Seam

variable {α β : Type} {s : Seam} {place : List Token → Prop} {n gap : Nat}

section Combinators

variable {p q : Parser α} {f : α → Parser β} {good : α → Prop} {good' : β → Prop}
  {stop stop' : Chart → Prop}

theorem Carries.loosen (h : s.Carries place n gap good stop p) :
    s.Carries place n 0 good stop p := by
  intro us suffix length here a rest found good_a stops
  obtain ⟨vs, below, shorter, same, there⟩ := h us suffix length here a rest found good_a stops
  exact ⟨vs, below, by omega, same, there⟩

theorem On.orElse_carries (hp : s.On place n gap p) (hq : s.Carries place n gap good stop q) :
    s.Carries place n gap good stop (p <|> q) := by
  intro us suffix length here a rest found good_a stops
  rcases orElse_eq_some.mp found with found | ⟨failed, found⟩
  · obtain ⟨vs, below, shorter, same, there⟩ := hp.carries us suffix length here a rest found good_a
      stops
    exact ⟨vs, below, shorter, same, orElse_eq_some.mpr (.inl there)⟩
  · obtain ⟨vs, below, shorter, same, there⟩ := hq us suffix length here a rest found good_a stops
    have refused := hp.refuses us suffix length here failed
    exact ⟨vs, below, shorter, same, orElse_eq_some.mpr (.inr ⟨refused, there⟩)⟩

theorem On.bind_refuses (hp : s.On place n gap p)
    (hf : ∀ a, s.Refuses (fun _ => True) n (f a)) : s.Refuses place n (p >>= f) := by
  intro us suffix length here failed
  cases hp us suffix length here with
  | fails _ there => exact bind_eq_none.mpr (.inl there)
  | @finds a vs below shorter found_here found_there =>
    refine bind_eq_none.mpr (.inr ⟨a, _, found_there, ?_⟩)
    refine hf a vs (below.trans suffix) (by omega) trivial ?_
    rw [bind_apply, found_here] at failed
    exact failed

theorem Leads.bind_refuses (hp : s.Leads p)
    (hf : ∀ a, s.Refuses (fun us => Complete (us ++ s.ending)) n (f a)) :
    s.Refuses (fun _ => True) n (p >>= f) := by
  intro us suffix length _ failed
  cases (hp us).1 with
  | fails _ there => exact bind_eq_none.mpr (.inl there)
  | @finds a vs below shorter found_here found_there =>
    obtain ⟨t, rfl, fresh⟩ := (hp us).2 a vs found_here
    refine bind_eq_none.mpr (.inr ⟨a, _, found_there, ?_⟩)
    simp only [List.length_cons] at length
    refine hf a vs (below.trans suffix) (by omega) (fresh.complete suffix) ?_
    rw [bind_apply, found_here] at failed
    exact failed

/-- The tokens that a second part takes. -/
theorem On.then_carries (hp : s.On place n 0 p)
    (hf : ∀ a, s.Carries (fun _ => True) n gap good' stop' (f a)) :
    s.Carries place n gap good' stop' (p >>= f) := by
  intro us suffix length here b rest found good_b stops
  cases hp us suffix length here with
  | fails none_here =>
    rw [bind_apply, none_here] at found
    cases found
  | @finds a vs below shorter found_here found_there =>
    rw [bind_apply, found_here] at found
    obtain ⟨ws, below', shorter', same, there⟩ := hf a vs (below.trans suffix) (by omega) trivial
      b rest found good_b stops
    exact ⟨ws, below'.trans below, by omega, same, bind_eq_some.mpr ⟨a, _, found_there, there⟩⟩

theorem Carries.anywhere (h : s.Carries (fun _ => True) n gap good stop p) :
    s.Carries place n gap good stop p :=
  fun us suffix length _ => h us suffix length trivial

end Combinators

/-- A construct that is complete is found in both readings. -/
theorem steady_construct {p : Parser Node} (constructs : Constructs p) (empty : p [] = none)
    (carried : s.Carries (fun _ => True) n 1 Clean (fun _ => True) p) : s.Steady n 1 p := by
  intro us suffix length complete
  cases us with
  | nil =>
    obtain ⟨row, rest, hk, there⟩ := s.joined_nil
    have fails_there : p (s.joined []) = none := by rw [there, constructs.newline hk]
    rcases s.alone_nil with here | ⟨row', rest', hk', here⟩
    · exact .fails (by rw [here, empty]) fails_there
    · exact .fails (by rw [here, constructs.newline hk']) fails_there
  | cons t us =>
    rcases constructs t with opened | declined
    · obtain ⟨p', same, node, rest, found, clean⟩ := complete (by simp [Token.opens, opened])
      have : p' = p := by simpa [opened] using same.symm
      subst this
      obtain ⟨vs, below, shorter, rfl, there⟩ := carried _ suffix length trivial node rest found
        clean trivial
      exact .finds below shorter found there
    · obtain ⟨row, hr, here⟩ := s.alone_cons t us
      obtain ⟨row', hr', there⟩ := s.joined_cons t us
      exact .fails (by rw [here, declined row _ hr]) (by rw [there, declined row' _ hr'])

theorem steady_word {w : Keyword} {f : Token → Parser Node} (leading : w ∉ valueWords)
    (here : ∀ t : Token, t.kind = .keyword w → construct? t = some (keyword w >>= f))
    (hf : ∀ t, s.Carries (fun us => Complete (us ++ s.ending)) n 0 Clean (fun _ => True) (f t)) :
    s.Steady (n + 1) 1 (keyword w >>= f) :=
  steady_construct (constructs_word here) rfl ((leads_keyword leading).bind_carries hf)

section Constructs

variable (known : s.Known n)
include known

/-- A body and its `end`. -/
theorem carries_body {g : Node → Token → Node}
    (keeps : ∀ body last, Clean (g body last) → Clean body) :
    s.Carries (fun _ => True) n 0 Clean (fun _ => True) (do
      let body ← block
      let last ← keyword .endKw
      return g body last) := by
  refine (carries_block known).bind (fun body => (firm_keyword .endKw).give.loosen.carries) ?_
  intro body chart node rest found clean _
  obtain ⟨stops, last, rfl⟩ := closed_eq_some found
  exact ⟨keeps body last clean, stops⟩

theorem steady_definition {word : Keyword} {kind : Kind} {head : Parser Node}
    (leading : word ∉ valueWords)
    (here : ∀ t : Token, t.kind = .keyword word → construct? t = some (definition word kind head))
    (steady : s.Steady n 1 head) : s.Steady (n + 1) 1 (definition word kind head) := by
  refine steady_word leading here fun first => ?_
  refine steady.loosen.bind_carries fun head => carries_body known fun body last clean => ?_
  exact clean_placeBlock clean (.tail _ (.head _))

theorem steady_enclosed {word : Keyword} {kind : Kind} (leading : word ∉ valueWords)
    (here : ∀ t : Token, t.kind = .keyword word → construct? t = some (enclosed word kind)) :
    s.Steady (n + 1) 1 (enclosed word kind) := by
  refine steady_word leading here fun first => ?_
  refine (carries_body known fun body last clean => ?_).anywhere
  exact clean_placeBlock clean (.head _)

theorem steady_letBlock : s.Steady (n + 1) 1 letBlock := by
  refine steady_word (by decide) (fun t ht => by simp only [construct?, ht]; rfl) fun first => ?_
  have bindings : s.Steady n 0 (separated (rule Row.expression) comma) :=
    leads_comma.separated known.expression
  refine bindings.map.bind_carries fun bindings => carries_body known fun body last clean => ?_
  exact clean_placeBlock clean (.tail _ (.head _))

theorem steady_forBlock : s.Steady (n + 1) 1 forBlock := by
  refine steady_word (by decide) (fun t ht => by simp only [construct?, ht]; rfl) fun first => ?_
  refine (steady_forBindings known).loosen.bind_carries fun bindings =>
    carries_body known fun body last clean => ?_
  exact clean_placeBlock clean (List.mem_append_right _ (.head _))

/-- The body of a clause, up to the next part of its construct. -/
theorem carries_clauseBody {g : Node → Node} (keeps : ∀ body, Clean (g body) → Clean body) :
    s.Carries (fun _ => True) n 0 Clean (· ≠ []) (do let body ← block; return g body) :=
  (carries_block known).give keeps

omit known in
theorem refuses_clauseBody {g : Node → Node} :
    s.Refuses place n (do let body ← block; return g body) := by
  intro us _ _ _ failed
  obtain ⟨body, rest, found⟩ := block_total (s.alone us)
  rw [bind_apply, found] at failed
  cases failed

theorem carries_part {word : Keyword} {kind : Kind} (leading : word ∉ valueWords) :
    s.Carries (fun _ => True) n 1 Clean (· ≠ []) (part word kind) := by
  refine .sooner ((leads_keyword leading).bind_carries fun first =>
    (carries_clauseBody known ?_).anywhere)
  intro body clean
  exact clean_placeBlock clean (.head _)

omit known in
theorem refuses_part {word : Keyword} {kind : Kind} (leading : word ∉ valueWords) :
    s.Refuses (fun _ => True) n (part word kind) :=
  (leads_keyword leading).bind_refuses fun _ => refuses_clauseBody

theorem carries_elseifClause : s.Carries (fun _ => True) n 1 Clean (· ≠ []) elseifClause := by
  refine .sooner ((leads_keyword (by decide)).bind_carries fun first => ?_)
  refine known.arrow.loosen.bind_carries fun condition => carries_clauseBody known ?_
  intro body clean
  exact clean_placeBlock clean (.tail _ (.head _))

theorem refuses_elseifClause : s.Refuses (fun _ => True) n elseifClause := by
  refine (leads_keyword (by decide)).bind_refuses fun first => ?_
  exact known.arrow.bind_refuses fun _ => refuses_clauseBody

theorem carries_catchClause : s.Carries (fun _ => True) n 1 Clean (· ≠ []) catchClause := by
  refine .sooner ((leads_keyword (by decide)).bind_carries fun first => ?_)
  refine (On.anywhere firm_name.option).bind_carries fun caught => carries_clauseBody known ?_
  intro body clean
  exact clean_placeBlock clean (List.mem_append_right _ (.head _))

omit known in
theorem refuses_catchClause : s.Refuses (fun _ => True) n catchClause := by
  refine (leads_keyword (by decide)).bind_refuses fun first => ?_
  exact (On.anywhere firm_name.option).bind_refuses fun _ => refuses_clauseBody

theorem steady_ifBlock : s.Steady (n + 1) 1 ifBlock := by
  refine steady_word (by decide) (fun t ht => by simp only [construct?, ht]; rfl) fun first => ?_
  refine known.arrow.loosen.bind_carries fun condition => ?_
  have others : s.Carries (fun _ => True) n 0 (fun clauses => ∀ node ∈ clauses, Clean node)
      (· ≠ []) (many elseifClause) := by
    refine (carries_elseifClause known).many rfl ?_ (fun _ stops => stops) ?_
    · rintro _ node rest found rfl
      cases found
    · intro us suffix length _
      exact refuses_elseifClause known us suffix length trivial
  have otherwise : s.Carries (fun _ => True) n 0 (fun clause => ∀ node ∈ clause, Clean node)
      (· ≠ []) (option (part .elseKw .elseClause)) :=
    (carries_part known (by decide)).option (refuses_part (by decide))
  refine (carries_block known).bind (fun body => others.bind (fun others => otherwise.bind
    (fun otherwise => (firm_keyword .endKw).give.loosen.carries) ?_) ?_) ?_
  · intro otherwise chart node rest found clean _
    obtain ⟨stops, last, rfl⟩ := closed_eq_some found
    exact ⟨fun clause mem => Node.hasErrors_child clean (by simp_all [bracketed]), stops⟩
  · intro others chart node rest found clean _
    constructor
    · obtain ⟨otherwise, mid, _, found⟩ := bind_eq_some.mp found
      obtain ⟨_, last, rfl⟩ := closed_eq_some found
      exact fun clause mem => Node.hasErrors_child clean (by simp [bracketed, mem])
    · rintro rfl
      cases found
  · intro body chart node rest found clean _
    constructor
    · obtain ⟨others, mid, _, found⟩ := bind_eq_some.mp found
      obtain ⟨otherwise, mid', _, found⟩ := bind_eq_some.mp found
      obtain ⟨_, last, rfl⟩ := closed_eq_some found
      exact clean_placeBlock clean (.tail _ (.head _))
    · rintro rfl
      cases found

theorem steady_tryBlock : s.Steady (n + 1) 1 tryBlock := by
  refine steady_word (by decide) (fun t ht => by simp only [construct?, ht]; rfl) fun first => ?_
  have handler : s.Carries (fun _ => True) n 0 (fun clause => ∀ node ∈ clause, Clean node)
      (· ≠ []) (option catchClause) := (carries_catchClause known).option refuses_catchClause
  have another : ∀ {word : Keyword} {kind : Kind}, word ∉ valueWords →
      s.Carries (fun _ => True) n 0 (fun clause => ∀ node ∈ clause, Clean node) (· ≠ [])
        (option (part word kind)) :=
    fun leading => (carries_part known leading).option (refuses_part leading)
  refine ((carries_block known).bind (fun body => handler.bind (fun handler =>
    (another (by decide)).bind (fun otherwise => (another (by decide)).bind
    (fun cleanup => (firm_keyword .endKw).give.loosen.carries) ?_) ?_) ?_) ?_).anywhere
  · intro cleanup chart node rest found clean _
    obtain ⟨stops, last, rfl⟩ := closed_eq_some found
    exact ⟨fun clause mem => Node.hasErrors_child clean (by simp_all [bracketed]), stops⟩
  · intro otherwise chart node rest found clean _
    constructor
    · obtain ⟨cleanup, mid, _, found⟩ := bind_eq_some.mp found
      obtain ⟨_, last, rfl⟩ := closed_eq_some found
      exact fun clause mem => Node.hasErrors_child clean (by simp_all [bracketed])
    · rintro rfl
      cases found
  · intro handler chart node rest found clean _
    constructor
    · obtain ⟨otherwise, mid, _, found⟩ := bind_eq_some.mp found
      obtain ⟨cleanup, mid', _, found⟩ := bind_eq_some.mp found
      obtain ⟨_, last, rfl⟩ := closed_eq_some found
      exact fun clause mem => Node.hasErrors_child clean (by simp_all [bracketed])
    · rintro rfl
      cases found
  · intro body chart node rest found clean _
    constructor
    · obtain ⟨handler, mid, _, found⟩ := bind_eq_some.mp found
      obtain ⟨otherwise, mid', _, found⟩ := bind_eq_some.mp found
      obtain ⟨cleanup, mid'', _, found⟩ := bind_eq_some.mp found
      obtain ⟨_, last, rfl⟩ := closed_eq_some found
      exact clean_placeBlock clean (.head _)
    · rintro rfl
      cases found

omit known in
/-- Behind an operator of a level what opens is complete. A colon has an operand before it there. -/
theorem complete_operator {level : Level} {tighter : List Level} {op : Token} {us vs : List Token}
    {node : Node} (within : level :: tighter <:+ Level.all) (start : us <:+ s.front)
    (suffix : op :: vs <:+ s.front) (accepted : level.accepts op = true)
    (operand : chain tighter (s.alone us) = some (node, s.alone (op :: vs))) :
    Complete (vs ++ s.ending) := by
  by_cases other : level = .range
  · subst other
    have listed := (List.mem_tails _ _).mpr within
    obtain rfl : tighter = [.plus, .times, .shift] := by
      simpa [Level.all, Level.fromComparison] using listed
    refine complete_behind suffix ?_ fun _ => ⟨us ++ s.ending, ?_, ?_⟩
    · simp only [Level.accepts, Token.isOperator, Bool.or_eq_true, Bool.and_eq_true,
        beq_iff_eq] at accepted
      rcases accepted with ⟨kind, text⟩ | ⟨kind, text⟩
      all_goals simp [Token.endsValue, kind, text]
    · obtain ⟨front, split⟩ := start
      exact (List.mem_tails _ _).mpr ⟨front, by simp [← split]⟩
    · rw [alone] at operand
      simp [operand, alone, tokens_ofTokens]
  · exact (leading_level other op accepted).2.complete suffix

/-- A chain of operands, where the operands behind the first are asked behind an operator. -/
theorem steady_chain {m : Nat} (le : m ≤ n + 1) (first : s.Steady m 1 (rule Row.unary))
    {levels : List Level} (within : levels <:+ Level.all) : s.Steady m 1 (chain levels) := by
  induction levels generalizing m with
  | nil => exact first
  | cons level tighter ih =>
    have inner : tighter <:+ Level.all := (List.suffix_cons level tighter).trans within
    have operand : s.Steady n 1 (chain tighter) := ih (Nat.le_succ n) known.unary inner
    have inline := inline_level level
    intro us suffix length here
    refine (ih le first inner us suffix length here).bind fun _ vs below found => ?_
    have below' := below.length_le
    -- where a round starts, an operand has ended
    refine (@Agrees.many _ s _ vs (fun ws => ∃ start node, start <:+ s.front ∧
      chain tighter (s.alone start) = some (node, s.alone ws)) ⟨us, _, suffix, found⟩ ?_ ?_).bind
      fun _ ws _ _ => .pure _ ws
    · rintro ws behind ⟨start, node, whole, ended⟩
      refine (Agrees.token inline ws).bind fun op xs _ next => ?_
      obtain ⟨rfl, accepted⟩ := token_found inline next
      have position := behind.trans (below.trans suffix)
      have shorter := behind.length_le
      simp only [List.length_cons] at shorter
      have complete := complete_operator within whole position accepted ended
      exact (operand xs ((List.suffix_cons op xs).trans position) (by omega) complete).loosen.bind
        fun _ ys _ _ => .pure _ ys
    · rintro ws _ ys behind _ round
      obtain ⟨op, mid, next, round⟩ := bind_eq_some.mp round
      cases Agrees.token (s := s) inline ws with
      | fails none_here => rw [none_here] at next; cases next
      | @finds t xs further _ here _ =>
        rw [here] at next
        obtain ⟨rfl, rfl⟩ := Prod.mk.inj (Option.some.inj next)
        obtain ⟨operand, _, ended, round⟩ := bind_eq_some.mp round
        obtain ⟨_, rfl⟩ := pure_eq_some.mp round
        exact ⟨xs, operand, further.trans (behind.trans (below.trans suffix)), ended⟩

theorem steady_typeHead : s.Steady n 1 typeHead :=
  (steady_chain known (Nat.le_succ n) known.unary ⟨[.disjunction, .conjunction], rfl⟩).give

theorem steady_structDefinition : s.Steady (n + 1) 1 structDefinition := by
  refine steady_construct constructs_structDefinition rfl ?_
  refine (firm_keyword .mutableKw).option.then_carries fun mutability => ?_
  refine (leads_keyword (by decide)).bind_carries fun word => ?_
  refine (steady_typeHead known).loosen.bind_carries fun head =>
    carries_body known fun body last clean => ?_
  exact clean_placeBlock clean (.tail _ (.head _))

theorem steady_primitiveDefinition : s.Steady (n + 1) 1 primitiveDefinition := by
  refine steady_word (by decide) (fun t ht => by simp only [construct?, ht]; rfl) fun first => ?_
  refine .anywhere (.loosen (.sooner ((leads_keyword (by decide)).bind_carries fun _ => ?_)))
  refine (steady_typeHead known).loosen.bind_carries fun head => ?_
  -- the number of bits stands right behind the head
  refine (carries_rule heads_rules.arrow known.arrow).loosen.bind
    (fun bits => (firm_keyword .endKw).give.loosen.carries) ?_
  intro bits chart node rest found clean _
  obtain ⟨_, last, rfl⟩ := closed_eq_some found
  exact ⟨Node.hasErrors_child clean (by simp [bracketed]), trivial⟩

theorem steady_doClause : s.Steady (n + 1) 1 doClause := by
  refine steady_word (by decide) (fun t ht => by simp only [construct?, ht]; rfl) fun first => ?_
  have parameters : s.Steady n 0 (separated (rule Row.arrow) comma) :=
    leads_comma.separated known.arrow
  refine parameters.map.bind_carries fun parameters => carries_body known fun body last clean => ?_
  exact clean_placeBlock clean (.tail _ (.head _))

/-- The word of a block behind the bracket of a call opens it. -/
theorem agrees_doClause {t : Token} {us : List Token} (suffix : t :: us <:+ s.front)
    (length : us.length < n + 1) (closing : t.isPunctuation ')' = true) :
    s.Agrees 1 doClause us := by
  cases Agrees.token (s := s) (inline_keyword .doKw) us with
  | fails here there =>
    exact .fails (bind_eq_none.mpr (.inl here)) (bind_eq_none.mpr (.inl there))
  | @finds word vs _ _ here _ =>
    obtain ⟨rfl, isDo⟩ := token_found (inline_keyword .doKw) here
    refine steady_doClause known _ ((List.suffix_cons _ _).trans suffix) length ?_
    obtain ⟨front, split⟩ := suffix
    have whole : s.front ++ s.ending = (front ++ [t]) ++ (word :: vs ++ s.ending) := by
      simp [← split]
    rcases s.sealed_ending.opened _ _ whole with complete | ⟨_, other⟩ | ⟨c, last, isColon, _⟩
    · exact complete
    · simp [isDo] at other
    · obtain rfl : t = c := by simpa using last
      simp only [Token.isPunctuation, Bool.and_eq_true, beq_iff_eq] at closing
      simp [Token.isOperator, closing.1] at isColon

def Unopened (chart : Chart) : Prop := chart.head?.any (fun row => row.token.opens) = false

omit known in
theorem complete_of_unopened {us : List Token} (h : Unopened (s.alone us)) :
    Complete (us ++ s.ending) := by
  intro opens
  unfold Unopened alone at h
  cases here : us ++ s.ending with
  | nil => simp [here] at opens
  | cons t ts =>
    rw [here] at h opens
    simp only [List.head?_cons, Option.any_some] at opens
    simp [ofTokens_cons, build_token, opens] at h

/-- Cells next to one another. What stops them opens no construct. -/
theorem carries_cells : s.Carries (fun _ => True) n 0 (fun cells => ∀ node ∈ cells, Clean node)
    Unopened (many (rule Row.arrow)) := by
  refine (carries_rule heads_rules.arrow known.arrow).many rfl (fun _ _ _ _ => trivial)
    (fun _ _ => trivial) ?_
  intro us suffix length unopened
  exact known.arrow.refuses us suffix length (complete_of_unopened unopened)

theorem carries_matrixRow : s.Carries (fun _ => True) n 1 Clean Unopened matrixRow := by
  have cells : s.Carries (fun _ => True) n 1 (fun cells => ∀ node ∈ cells, Clean node) Unopened
      (many1 (rule Row.arrow)) := by
    refine (carries_rule heads_rules.arrow known.arrow).bind (fun first =>
      (carries_cells known).give fun rest clean node mem => clean node (by simp [mem])) ?_
    intro first chart cells rest found clean _
    obtain ⟨others, _, _, found⟩ := bind_eq_some.mp found
    obtain ⟨rfl, _⟩ := pure_eq_some.mp found
    exact ⟨clean first (by simp), trivial⟩
  exact cells.give fun cells clean node mem => Node.hasErrors_wrap clean mem

theorem refuses_matrixRow :
    s.Refuses (fun us => Complete (us ++ s.ending)) n matrixRow := by
  intro us suffix length complete failed
  rcases bind_eq_none.mp failed with failed | ⟨_, _, _, failed⟩
  · rcases bind_eq_none.mp failed with failed | ⟨_, _, _, failed⟩
    · have there := known.arrow.refuses us suffix length complete failed
      exact bind_eq_none.mpr (.inl (bind_eq_none.mpr (.inl there)))
    · cases failed
  · cases failed

omit known in
theorem unopened_of_token {accepts : Token → Bool} (plain : Plain accepts) {chart rest : Chart}
    {t : Token} (found : token accepts chart = some (t, rest)) : Unopened chart := by
  cases chart with
  | nil => rfl
  | cons row chart =>
    simp only [token] at found
    split at found
    · next accepted =>
      unfold Unopened
      cases opens : row.token.opens with
      | false => simp [opens]
      | true => rw [plain _ opens] at accepted; cases accepted
    · cases found

/-- Rows with semicolons between them. -/
theorem carries_rows : s.Carries (fun _ => True) n 1 (fun rows => ∀ node ∈ rows, Clean node)
    Unopened (separated1 matrixRow (punctuation ';')) := by
  have semicolon : Plain fun t => t.isPunctuation ';' := plain_punctuation (by decide)
  have again : ∀ chart row rest, (do let _ ← punctuation ';'; matrixRow : Parser Node) chart =
      some (row, rest) → Unopened chart := by
    intro chart row rest found
    obtain ⟨t, mid, first, _⟩ := bind_eq_some.mp found
    exact unopened_of_token semicolon first
  have rounds : s.Carries (fun _ => True) n 0 (fun rows => ∀ node ∈ rows, Clean node) Unopened
      (many (do let _ ← punctuation ';'; matrixRow)) := by
    have round := (firm_punctuation ';').bind_carries fun _ => (carries_matrixRow known).loosen
    refine round.many rfl again (fun _ stops => stops) fun us suffix length _ => ?_
    have refuses : s.Refuses (fun _ => True) n (do let _ ← punctuation ';'; matrixRow) :=
      (leads_punctuation (by decide)).bind_refuses fun _ => refuses_matrixRow known
    exact refuses us suffix length trivial
  refine (carries_matrixRow known).bind (fun first => rounds.give fun rest clean node mem =>
    clean node (by simp [mem])) ?_
  intro first chart rows rest found clean stops
  obtain ⟨others, mid, repeated, found⟩ := bind_eq_some.mp found
  obtain ⟨rfl, rfl⟩ := pure_eq_some.mp found
  refine ⟨clean first (by simp), ?_⟩
  rcases many_cases repeated with rfl | ⟨row, last, next⟩
  · exact stops
  · exact again chart row last next

theorem carries_bracket : s.Carries (fun _ => True) (n + 1) 1 Clean (fun _ => True) bracket := by
  have opening : s.Leads (punctuation '[') := leads_punctuation (by decide)
  have items : s.Steady n 1 (separated1 (rule Row.arrow) comma) :=
    leads_comma.separated1 known.arrow
  have close : s.Firm n 1 (punctuation ']') := firm_punctuation ']'
  refine On.orElse_carries ?_ (On.orElse_carries ?_ (On.orElse_carries ?_ ?_))
  · exact opening.bind fun _ => (On.anywhere close).loosen.give
  · refine opening.bind fun _ => (steady_comprehension known _).loosen.bind fun node => ?_
    exact close.loosen.give
  · refine opening.bind fun _ => items.loosen.bind fun items => ?_
    exact (firm_punctuation ',').option.bind fun _ => close.loosen.give
  · refine opening.bind_carries fun first => ?_
    have last : ∀ rows, s.Firm n 0 (do
        let _ ← option (punctuation ';')
        let last ← punctuation ']'
        return bracketed .matrixExpression first last rows) :=
      fun rows => (firm_punctuation ';').option.bind fun _ => close.loosen.give
    refine ((carries_rows known).loosen.bind (fun rows => (last rows).carries) ?_).anywhere
    intro rows chart node rest found clean _
    obtain ⟨separator, mid, optional, found⟩ := bind_eq_some.mp found
    obtain ⟨close, _, closing, found⟩ := bind_eq_some.mp found
    obtain ⟨rfl, _⟩ := pure_eq_some.mp found
    refine ⟨fun row mem => Node.hasErrors_child clean mem, ?_⟩
    -- what follows the rows is a semicolon or the bracket
    rw [option_apply] at optional
    cases first : punctuation ';' chart with
    | some result => exact unopened_of_token (plain_punctuation (by decide)) first
    | none =>
      rw [first] at optional
      obtain ⟨_, rfl⟩ := Prod.mk.inj (Option.some.inj optional)
      exact unopened_of_token (plain_punctuation (by decide)) closing

theorem steady_bracket : s.Steady (n + 1) 1 bracket :=
  steady_construct constructs_bracket rfl (carries_bracket known)

theorem steady_blockConstruct : s.Steady (n + 1) 1 blockConstruct := by
  refine On.orElse ?_ (On.orElse ?_ (On.orElse (steady_letBlock known) (On.orElse
    (steady_forBlock known) (On.orElse ?_ (On.orElse (steady_ifBlock known) (On.orElse
    (steady_tryBlock known) ?_))))))
  · exact steady_definition known (by decide) (fun t ht => by simp only [construct?, ht])
      known.whereExpression.give
  · exact steady_enclosed known (by decide) fun t ht => by simp only [construct?, ht]
  · exact steady_definition known (by decide) (fun t ht => by simp only [construct?, ht])
      known.arrow
  · exact steady_enclosed known (by decide) fun t ht => by simp only [construct?, ht]

end Constructs

end Seam

end CellBindings
