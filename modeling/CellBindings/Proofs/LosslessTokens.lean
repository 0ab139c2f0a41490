import CellBindings.Proofs.TokenPlaces

/-!
Nothing is lost between tokens. The text before, between and behind the tokens is made up of blanks
and comments, and each token tells whether such a gap, a line break or nothing at all stands before
it. The grammar of gaps is stated on its own, without the scanner's counting of comment marks.
-/

namespace CellBindings

/-- A block comment behind its opening mark. Marks are read from the left, and a comment inside it
is closed first. -/
inductive CommentTail : Text → Prop where
  | close : CommentTail ['=', '#']
  | char {c cs} : ¬ ['#', '='] <+: c :: cs → ¬ ['=', '#'] <+: c :: cs → CommentTail cs →
      CommentTail (c :: cs)
  | nested {inner cs} : CommentTail inner → CommentTail cs →
      CommentTail ('#' :: '=' :: (inner ++ cs))

inductive Filler : Text → Text → Prop where
  | none {rest} : Filler [] rest
  | blank {c more rest} : isBlank c = true → Filler more rest → Filler (c :: more) rest
  | line {cs more rest} : cs.head? ≠ some '=' → '\n' ∉ cs → (∀ c ∈ (more ++ rest).head?, c = '\n') →
      Filler more rest → Filler ('#' :: (cs ++ more)) rest
  | block {tail more rest} : CommentTail tail → Filler more rest →
      Filler ('#' :: '=' :: (tail ++ more)) rest

theorem Filler.append {gap more rest behind : Text} (h : Filler gap behind)
    (hb : behind = more ++ rest) (k : Filler more rest) : Filler (gap ++ more) rest := by
  induction h with
  | none => exact k
  | blank hc _ ih => exact .blank hc (ih hb)
  | @line cs between behind hh hn stop _ ih =>
    subst hb
    have joined := Filler.line hh hn (by simpa using stop) (ih rfl)
    simpa using joined
  | block tail _ ih =>
    have joined := Filler.block tail (ih hb)
    simpa using joined

section Comments

inductive CommentTails : Nat → Text → Prop where
  | one {tail} : CommentTail tail → CommentTails 0 tail
  | more {n tail rest} : CommentTail tail → CommentTails n rest → CommentTails (n + 1) (tail ++ rest)

theorem mark_front {a b c : Char} {cs : Text} :
    [a, b] <+: c :: cs ↔ c = a ∧ ∃ more, cs = b :: more := by
  constructor
  · rintro ⟨more, h⟩
    simp only [List.cons_append, List.nil_append, List.cons.injEq] at h
    exact ⟨h.1.symm, more, h.2.symm⟩
  · rintro ⟨rfl, more, rfl⟩
    exact ⟨more, rfl⟩

theorem CommentTails.char {n : Nat} {c : Char} {front back : Text} (h : CommentTails n front)
    (opens : ¬ ['#', '='] <+: c :: (front ++ back)) (closes : ¬ ['=', '#'] <+: c :: (front ++ back)) :
    CommentTails n (c :: front) := by
  have shorter {mark tail more : Text} (hm : ¬ mark <+: c :: (tail ++ more)) :
      ¬ mark <+: c :: tail := by
    intro ht
    exact hm (ht.trans (List.prefix_append (c :: tail) more))
  cases h with
  | one tail => exact .one (.char (shorter opens) (shorter closes) tail)
  | more tail rest =>
    rw [List.append_assoc] at opens closes
    exact .more (.char (shorter opens) (shorter closes) tail) rest

theorem CommentTails.nested {n : Nat} {front : Text} (h : CommentTails (n + 1) front) :
    CommentTails n ('#' :: '=' :: front) := by
  cases h with
  | more inner rest =>
    cases rest with
    | one tail => exact .one (.nested inner tail)
    | @more n tail rest ht hr =>
      have closed := CommentTails.more (.nested inner ht) hr
      simpa using closed

/-- Counting open comments finds the ends of all of them. -/
theorem cutComment_tails {depth : Nat} {text front back : Text}
    (h : Text.cutComment depth text = some (front, back)) : CommentTails depth front := by
  induction depth, text using Text.cutComment.induct generalizing front back with
  | case1 => simp [Text.cutComment] at h
  | case2 depth cs ih =>
    simp only [Text.cutComment, Option.map_eq_some_iff, Prod.exists, Prod.mk.injEq] at h
    obtain ⟨inside, behind, cut, rfl, rfl⟩ := h
    exact (ih cut).nested
  | case3 cs =>
    simp only [Text.cutComment, Option.some.injEq, Prod.mk.injEq] at h
    rw [← h.1]
    exact .one .close
  | case4 depth cs ih =>
    simp only [Text.cutComment, Option.map_eq_some_iff, Prod.exists, Prod.mk.injEq] at h
    obtain ⟨inside, behind, cut, rfl, rfl⟩ := h
    exact .more .close (ih cut)
  | case5 depth c cs opens closesLast closes ih =>
    rw [Text.cutComment] at h
    · simp only [Option.map_eq_some_iff, Prod.exists, Prod.mk.injEq] at h
      obtain ⟨inside, behind, cut, rfl, rfl⟩ := h
      have same := Text.cutComment_append cut
      apply (ih cut).char
      · rw [same, mark_front]
        rintro ⟨rfl, more, rfl⟩
        exact opens more rfl rfl
      · rw [same, mark_front]
        rintro ⟨rfl, more, rfl⟩
        cases depth with
        | zero => exact closesLast more rfl rfl rfl
        | succ depth => exact closes depth more rfl rfl rfl
    all_goals assumption

theorem Gap.filler {gap rest : Text} (h : Gap gap rest) : Filler gap rest := by
  cases h with
  | blank hc => exact .blank hc .none
  | line hh hn stop =>
    have comment := @Filler.line _ [] rest hh hn stop .none
    simpa using comment
  | block cut =>
    cases cutComment_tails cut with
    | one tail =>
      have comment := @Filler.block _ [] rest tail .none
      simpa using comment

theorem Gap.ne_nil {gap rest : Text} (h : Gap gap rest) : gap ≠ [] := by
  cases h <;> simp

end Comments

def Text.Filled (text : Text) (start stop : Nat) : Prop :=
  ∃ front gap back, text = front ++ (gap ++ back) ∧ front.byteSize = start ∧
    front.byteSize + gap.byteSize = stop ∧ Filler gap back

theorem Text.filled_nothing {text front back : Text} (h : text = front ++ back) :
    text.Filled front.byteSize front.byteSize :=
  ⟨front, [], back, h, rfl, rfl, .none⟩

theorem Text.Filled.le {text : Text} {start stop : Nat} (h : text.Filled start stop) :
    start ≤ stop := by
  obtain ⟨front, gap, back, -, rfl, rfl, -⟩ := h
  omega

/-- A text is cut at a place in one way only. -/
theorem Text.cut_inj {front back front' back' : Text} (h : front ++ back = front' ++ back')
    (size : front.byteSize = front'.byteSize) : front = front' ∧ back = back' := by
  have first := Text.splitAt?_append front back
  rw [h, size, Text.splitAt?_append front' back'] at first
  simp only [Option.some.injEq, Prod.mk.injEq] at first
  exact ⟨first.1.symm, first.2.symm⟩

theorem Text.Filled.extend {text front gap rest : Text} {start : Nat}
    (h : text.Filled start front.byteSize) (cut : text = front ++ (gap ++ rest))
    (k : Filler gap rest) : text.Filled start (front.byteSize + gap.byteSize) := by
  obtain ⟨before, first, back, same, rfl, size, filler⟩ := h
  have joined : (before ++ first) ++ back = front ++ (gap ++ rest) := by simp [← cut, same]
  obtain ⟨rfl, rfl⟩ := Text.cut_inj joined (by simpa using size)
  refine ⟨before, first ++ gap, rest, by simp [cut], rfl, ?_, filler.append rfl k⟩
  simp only [Text.byteSize_append]
  omega

/-- A token at the place is the first, or has a gap or a line break before it. -/
def SetApart (before : List Token) (place : Nat) : Prop :=
  before = [] ∨ stopAfter 0 before < place ∨ ∃ last ∈ before.getLast?, last.kind = .newline

structure Token.Follows (text : Text) (before : List Token) (t : Token) : Prop where
  gap : text.Filled (stopAfter 0 before) t.span.start
  spaced : t.kind ≠ .error → (t.spaceBefore = true ↔ SetApart before t.span.start)

def AllFollow (text : Text) (ts : List Token) : Prop :=
  ∀ before t after, ts = before ++ t :: after → t.Follows text before

theorem AllFollow.left {text : Text} {us vs : List Token} (h : AllFollow text (us ++ vs)) :
    AllFollow text us := by
  intro before t after split
  exact h before t (after ++ vs) (by simp [split])

theorem AllFollow.concat {text : Text} {ts : List Token} {last : Token} (h : AllFollow text ts)
    (hl : last.Follows text ts) : AllFollow text (ts ++ [last]) := by
  intro before t after split
  rcases List.eq_nil_or_concat after with rfl | ⟨init, final, rfl⟩
  · obtain ⟨rfl, same⟩ := List.append_inj' split rfl
    cases same
    exact hl
  · have joined : ts ++ [last] = (before ++ t :: init) ++ [final] := by simpa using split
    exact h before t init (List.append_inj' joined rfl).1

/-- The tokens that start before one of them are those listed before it. -/
theorem Ordered.filter_before {before after : List Token} {u : Token}
    (h : Ordered (before ++ u :: after)) :
    (before ++ u :: after).filter (·.span.start < u.span.start) = before := by
  have kept : before.filter (·.span.start < u.span.start) = before := by
    apply List.filter_eq_self.mpr
    intro t ht
    have filled := h.nonempty t (by simp [ht])
    have stops := h.across ht List.mem_cons_self
    exact decide_eq_true (by omega)
  have dropped : (u :: after).filter (·.span.start < u.span.start) = [] := by
    apply List.filter_eq_nil_iff.mpr
    intro t ht
    rcases List.mem_cons.mp ht with rfl | ht
    · simp
    · have stops := h.right.head_before t ht
      have filled := h.nonempty u (by simp)
      simp only [decide_eq_true_eq]
      omega
  rw [List.filter_append, kept, dropped, List.append_nil]

structure Accounted (text : Text) (s : Scanner) (rest : Text) : Prop extends
    Placed text s rest where
  follow : AllFollow text s.tokens
  gap : text.Filled (stopAfter 0 s.tokens) s.offset
  flag : s.spaced = true ↔ SetApart s.tokens s.offset

namespace Accounted

variable {text rest : Text} {s t : Scanner}

theorem initial (text : Text) : Accounted text .initial text where
  toPlaced := .initial text
  follow := by
    intro before t after split
    simp [Scanner.tokens, Scanner.initial] at split
  gap := @Text.filled_nothing text [] text rfl
  flag := by simp [Scanner.initial, Scanner.tokens, SetApart]

theorem tokens_emit (s : Scanner) (kind : Token.Kind) (lexeme : Text) :
    (s.emit kind lexeme).tokens =
      s.tokens ++ [⟨kind, lexeme, ⟨s.offset, s.offset + lexeme.byteSize⟩, s.spaced⟩] := by
  simp [Scanner.tokens, Scanner.emit]

theorem stopAfter_emit (s : Scanner) (kind : Token.Kind) (lexeme : Text) :
    stopAfter 0 (s.emit kind lexeme).tokens = (s.emit kind lexeme).offset := by
  rw [tokens_emit, stopAfter_append]
  rfl

theorem follow_emit (h : Accounted text s rest) (kind : Token.Kind) (lexeme : Text) :
    AllFollow text (s.emit kind lexeme).tokens := by
  rw [tokens_emit]
  exact h.follow.concat ⟨h.gap, fun _ => h.flag⟩

theorem gap_emit {kind : Token.Kind} {lexeme : Text}
    (placed : Placed text (s.emit kind lexeme) rest) :
    text.Filled (stopAfter 0 (s.emit kind lexeme).tokens) (s.emit kind lexeme).offset := by
  obtain ⟨front, cut, size⟩ := placed.cut
  rw [stopAfter_emit, ← size]
  exact Text.filled_nothing cut

theorem emit {kind : Token.Kind} {lexeme : Text} (h : Accounted text s (lexeme ++ rest))
    (hn : lexeme ≠ []) (hk : kind.IsPlain) : Accounted text (s.emit kind lexeme) rest := by
  have placed := h.toPlaced.emit hn hk.1
  refine ⟨placed, h.follow_emit kind lexeme, gap_emit placed, ?_⟩
  constructor
  · intro flag
    cases flag
  · rintro (none | before | ⟨last, hl, newline⟩)
    · simp [tokens_emit] at none
    · rw [stopAfter_emit] at before
      omega
    · simp only [tokens_emit, List.getLast?_concat, Option.mem_def, Option.some.injEq] at hl
      subst hl
      exact absurd newline hk.2

theorem breakLine (h : Accounted text s ('\n' :: rest)) :
    Accounted text { s.emit .newline ['\n'] with spaced := true } rest := by
  have placed := @Placed.emit text rest s .newline ['\n'] h.toPlaced (by simp) (by decide)
  have behind : SetApart (s.emit .newline ['\n']).tokens (s.emit .newline ['\n']).offset := by
    rw [tokens_emit]
    exact .inr (.inr ⟨_, List.getLast?_concat, rfl⟩)
  exact ⟨placed.flagged true, h.follow_emit .newline ['\n'], gap_emit placed, fun _ => behind,
    fun _ => rfl⟩

theorem skip {gap : Text} (h : Accounted text s (gap ++ rest)) (hg : Gap gap rest) :
    Accounted text (s.skip gap) rest := by
  obtain ⟨front, cut, size⟩ := h.cut
  have before := h.gap
  have filled : text.Filled (stopAfter 0 s.tokens) (s.skip gap).offset := by
    rw [← size] at before
    have longer := before.extend cut hg.filler
    rwa [size] at longer
  have passed : stopAfter 0 s.tokens < (s.skip gap).offset := by
    have := before.le
    have := Text.byteSize_pos hg.ne_nil
    simp only [Scanner.skip]
    omega
  exact ⟨h.toPlaced.skip, h.follow, filled, fun _ => .inr (.inl passed), fun _ => rfl⟩

theorem steer (h : Accounted text s rest) (steers : Steers s t) : Accounted text t rest := by
  have tokens : t.tokens = s.tokens := congrArg List.reverse steers.emitted
  refine ⟨h.toPlaced.steer steers, ?_, ?_, ?_⟩
  · rw [tokens]
    exact h.follow
  · rw [tokens, steers.offset]
    exact h.gap
  · rw [tokens, steers.offset, steers.spaced]
    exact h.flag

theorem moves {after : Text} (h : Accounted text s rest) (m : Moves s rest t after) :
    Accounted text t after := by
  induction m with
  | done => exact h
  | emit kind hn hk _ ih => exact ih (h.emit hn hk)
  | breakLine _ ih => exact ih h.breakLine
  | skip hg _ ih => exact ih (h.skip hg)
  | steer steers _ ih => exact ih (h.steer steers)

/-- The tokens that start before a construct left open come first, with a gap behind them. -/
theorem before_open (h : Accounted text s rest) {start : Nat} (ho : OpensAt s rest start) :
    ∃ dropped, s.tokens = s.tokens.filter (·.span.start < start) ++ dropped ∧
      text.Filled (stopAfter 0 (s.tokens.filter (·.span.start < start))) start := by
  rcases ho with ⟨u, hu, rfl⟩ | ⟨-, rfl⟩
  · obtain ⟨before, after, split⟩ := List.append_of_mem (List.mem_reverse.mpr hu)
    have split : s.tokens = before ++ u :: after := split
    have ordered := h.ordered
    rw [split] at ordered
    have first : s.tokens.filter (·.span.start < u.span.start) = before := by
      rw [split]
      exact ordered.filter_before
    rw [first]
    exact ⟨u :: after, split, (h.follow before u after split).gap⟩
  · have all : s.tokens.filter (·.span.start < s.offset) = s.tokens := by
      apply List.filter_eq_self.mpr
      intro t ht
      have filled := h.ordered.nonempty t ht
      have past := h.past t (List.mem_reverse.mp ht)
      exact decide_eq_true (by omega)
    rw [all]
    exact ⟨[], by simp, h.gap⟩

end Accounted

structure Lossless (text : Text) (ts : List Token) : Prop where
  filled : ∀ t ∈ ts, t.text ≠ []
  boundaries : ∀ t ∈ ts, text.IsBoundary t.span.start ∧ text.IsBoundary t.span.stop
  slice : ∀ t ∈ ts, text.slice? t.span = some t.text
  ordered : Ordered ts
  follow : AllFollow text ts
  last : text.Filled (stopAfter 0 ts) text.byteSize

theorem Token.StandsIn.slice {text : Text} {t : Token} (h : t.StandsIn text) :
    text.slice? t.span = some t.text := by
  obtain ⟨front, back, cut, span⟩ := h
  have forward : ¬ front.byteSize + t.text.byteSize < front.byteSize := by omega
  rw [span, Text.slice?, if_neg forward, cut, Text.splitAt?_append]
  simp [Text.splitAt?_append]

theorem WellPlaced.lossless {text : Text} {ts : List Token} (h : WellPlaced text ts)
    (follow : AllFollow text ts) (last : text.Filled (stopAfter 0 ts) text.byteSize) :
    Lossless text ts where
  filled := by
    intro t ht empty
    obtain ⟨front, back, -, span⟩ := h.standing t ht
    have nonempty := h.ordered.nonempty t ht
    simp [span, empty] at nonempty
  boundaries := fun t ht => (h.standing t ht).boundaries
  slice := fun t ht => (h.standing t ht).slice
  ordered := h.ordered
  follow := follow
  last := last

theorem tokenizeRecovering_follow (text : Text) :
    AllFollow text (tokenizeRecovering text) ∧
      text.Filled (stopAfter 0 (tokenizeRecovering text)) text.byteSize := by
  obtain ⟨n, after, turns, halts⟩ := run_turns .initial text
  have accounted := (Accounted.initial text).moves turns.moves
  have opens := halts.opensAt accounted.toPlaced
  unfold tokenizeRecovering
  generalize Scanner.initial.run text = result at accounted halts opens
  obtain ⟨s, failure⟩ := result
  cases failure with
  | none =>
    rcases halts with ⟨rfl, -⟩ | ⟨_, _, _, _, _, failed⟩
    · obtain ⟨front, cut, size⟩ := accounted.cut
      have ends : s.offset = text.byteSize := by simp [cut, size]
      have gap := accounted.gap
      rw [ends] at gap
      exact ⟨accounted.follow, gap⟩
    · cases failed
  | some e =>
    obtain ⟨dropped, split, gap⟩ := accounted.before_open (opens e rfl)
    have follow := accounted.follow
    rw [split] at follow
    dsimp only
    generalize (text.splitAt? e.start).getD (text, []) = cut
    obtain ⟨before, rest⟩ := cut
    -- the error token may not tell the truth about the gap before it
    refine ⟨follow.left.concat ⟨gap, fun read => absurd rfl read⟩, ?_⟩
    rw [stopAfter_append]
    exact @Text.filled_nothing text text [] (by simp)

/-- Where nothing is left open, nothing has to be recovered. -/
theorem tokenizeRecovering_of_ok {text : Text} {ts : List Token} (h : tokenize text = .ok ts) :
    tokenizeRecovering text = ts := by
  unfold tokenize at h
  unfold tokenizeRecovering
  split at h
  · exact Except.ok.inj h
  · cases h

/-- The scanner's loop comes to its end after at most one turn for each character. The tokens of a
text, recovered or not, then leave out nothing but blanks and comments, and a token that is no error
tells whether it is set apart from the one before it. -/
theorem tokens_lossless (text : Text) :
    (∃ n rest, n ≤ text.length ∧ Turns n .initial text (Scanner.initial.run text).1 rest ∧
      Halts (Scanner.initial.run text).1 rest (Scanner.initial.run text).2) ∧
    Lossless text (tokenizeRecovering text) ∧
    ∀ ts, tokenize text = .ok ts → Lossless text ts := by
  obtain ⟨follow, last⟩ := tokenizeRecovering_follow text
  have recovered := (tokenizeRecovering_wellPlaced text).lossless follow last
  refine ⟨?_, recovered, ?_⟩
  · obtain ⟨n, rest, turns, halts⟩ := run_turns .initial text
    have := turns.length_le
    exact ⟨n, rest, by omega, turns, halts⟩
  · intro ts ok
    rw [← tokenizeRecovering_of_ok ok]
    exact recovered

end CellBindings
