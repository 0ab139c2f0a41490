import CellBindings.Proofs.OperatorFormulas

/-!
Scanning the words of a formula. Where words have one blank between any two of them, each is one
token, of the kind that the word is meant to be. A name could only be taken for more if a word like
`type` followed it, so no two names may stand side by side.
-/

namespace CellBindings

open Grammar
open Text (Parted parted_blank)

def Formula.operators : List Text :=
  unaryOperators ++ ['=', '>'] :: ['^'] :: ['.', '^'] :: Level.all.flatMap Level.spellings

namespace Word

inductive Usual : Word → Prop where
  | name {text : Text} (named : text.IsName) (free : Keyword.ofName? text = none) :
      Usual (.name text)
  | sign {op : Text} (known : op ∈ Formula.operators) : Usual (.sign op)
  | isIn : Usual .isIn
  | isA : Usual .isA
  | opening : Usual .opening
  | closing : Usual .closing

def token (word : Word) (o : Nat) : Token :=
  ⟨word.kind, word.text, ⟨o, o + Text.byteSize word.text⟩, true⟩

def tokens : Nat → List Word → List Token
  | _, [] => []
  | o, word :: words => word.token o :: tokens (o + Text.byteSize word.text + 1) words

def Apart (a b : Word) : Prop := a.kind = .identifier → b.kind ≠ .identifier

end Word

section Lexemes

theorem isNameStart_solid {c : Char} (start : isNameStart c = true) :
    isBlank c = false ∧ c.isDigit = false ∧ c ≠ '.' := by
  have cases : (c = '_' ∨ c.isAlpha = true) ∨ 0xA0 ≤ c.toNat ∧ isBlank c = false := by
    simp only [isNameStart, Bool.or_eq_true, Bool.and_eq_true, beq_iff_eq, decide_eq_true_eq,
      Bool.not_eq_true'] at start
    exact start.imp_right And.left
  have between (low high : UInt32) (h : low ≤ c.val ∧ c.val ≤ high) :
      low.toNat ≤ c.toNat ∧ c.toNat ≤ high.toNat :=
    ⟨UInt32.le_iff_toNat_le.mp h.1, UInt32.le_iff_toNat_le.mp h.2⟩
  have both {low high : UInt32} (h : (decide (low ≤ c.val) && decide (c.val ≤ high)) = true) :
      low ≤ c.val ∧ c.val ≤ high := by
    simpa using h
  have digit : c.isDigit = true → 48 ≤ c.toNat ∧ c.toNat ≤ 57 := fun h => between 48 57 (both h)
  have point : c = '.' → c.toNat = 46 := by
    rintro rfl
    rfl
  have high : 65 ≤ c.toNat ∧ isBlank c = false := by
    rcases cases with ascii | ⟨high, solid⟩
    · have range : 65 ≤ c.toNat ∧ c.toNat ≤ 122 := by
        rcases ascii with rfl | alpha
        · decide
        have cases : (c.isUpper || c.isLower) = true := alpha
        rcases Bool.or_eq_true_iff.mp cases with upper | lower
        · obtain ⟨above, below⟩ := between 65 90 (of_decide_eq_true upper)
          exact ⟨above, Nat.le_trans below (by decide)⟩
        · obtain ⟨above, below⟩ := between 97 122 (both lower)
          exact ⟨Nat.le_trans (by decide) above, below⟩
      refine ⟨range.1, ?_⟩
      simp only [isBlank, blankRanges, List.any_cons, List.any_nil, Bool.or_false,
        Bool.or_eq_false_iff, Bool.and_eq_false_iff, decide_eq_false_iff_not]
      omega
    · exact ⟨by omega, solid⟩
  refine ⟨high.2, ?_, fun same => ?_⟩
  · rw [← Bool.not_eq_true]
    intro isDigit
    have := digit isDigit
    omega
  · have := point same
    omega

/-- A name takes all of its characters. -/
theorem cutName_name {cs : Text} (chars : ∀ d ∈ cs, d = '!' ∨ isNameChar d = true) :
    Text.cutName cs = (cs, []) := by
  induction cs with
  | nil => rfl
  | cons c cs ih =>
    have inside := ih fun d mem => chars d (List.mem_cons_of_mem c mem)
    have next : cs.head? ≠ some '=' := by
      intro equals
      rcases chars '=' (List.mem_cons_of_mem c (List.mem_of_head? equals)) with same | same
      · exact absurd same (by decide)
      · exact absurd same (by decide)
    have taken : ((c == '!' && cs.head? != some '=') || isNameChar c) = true := by
      rcases chars c List.mem_cons_self with rfl | named
      · simp [next]
      · simp [named]
    simp only [Text.cutName, taken, if_true, inside]

def isSignStart (c : Char) : Bool :=
  !List.contains
      ['\n', '#', ',', ';', '(', '[', '{', ')', ']', '}', '\x22', '\x60', '\x27', '@'] c &&
    !isBlank c && !c.isDigit && !isNameStart c

/-- Operators are found whole, in a text that ends with them. -/
theorem operators_found :
    Formula.operators.all (fun op =>
      match op with
      | [] => false
      | c :: cs => isSignStart c && !cs.head?.any Char.isDigit && op != ['?'] &&
          (Text.dottedOperator? op).or (Text.operator? op) == some op) = true := by
  decide +kernel

/-- No word but a name looks like one that makes a keyword of the name before it. -/
theorem usual_head {word : Word} (usual : word.Usual) (other : word.kind ≠ .identifier) :
    ∃ c cs, word.text = c :: cs ∧ c ≠ 't' ∧ c ≠ 's' ∧ c ≠ ' ' ∧ c ≠ '\t' := by
  have all : Formula.operators.all (fun op =>
      op.head?.any fun c => c != 't' && c != 's' && c != ' ' && c != '\t') = true := by
    decide +kernel
  cases usual with
  | name => exact absurd rfl other
  | sign known =>
    obtain ⟨c, first, plain⟩ := (Option.any_eq_true ..).mp (List.all_eq_true.mp all _ known)
    obtain ⟨cs, same⟩ := List.head?_eq_some_iff.mp first
    simp only [Bool.and_eq_true, bne_iff_ne, ne_eq, and_assoc] at plain
    exact ⟨c, cs, same, plain⟩
  | isIn | isA | opening | closing => exact ⟨_, _, rfl, by decide⟩

/-- Before a word that is no name, no keyword of two words starts. -/
theorem followedBy_behind {words : List Word} {c : Char} {cs : Text} (first : c = 't' ∨ c = 's')
    (follow : ∀ next ∈ words.head?, next.Usual ∧ next.kind ≠ .identifier) :
    Text.followedBy (c :: cs) (Word.behind words) = false := by
  cases words with
  | nil => rfl
  | cons next words =>
    obtain ⟨usual, other⟩ := follow next rfl
    obtain ⟨d, ds, text, t, s, blank, tab⟩ := usual_head usual other
    have solid : (d == ' ' || d == '\t') = false := by simp [blank, tab]
    have differs : (c == d) = false := by
      rcases first with rfl | rfl
      · simpa using Ne.symm t
      · simpa using Ne.symm s
    have shape : Word.behind (next :: words) = ' ' :: d :: (ds ++ Word.behind words) := by
      rw [Word.behind, Word.spaced_cons, text]
      rfl
    simp [Text.followedBy, shape, solid, List.isPrefixOf, differs]

end Lexemes

/-- Nothing but parentheses is open, and no colon or `type` is waited for. -/
structure Scanner.Ready (s : Scanner) : Prop where
  frames : ∀ frame ∈ s.frames, frame = ⟨.paren, 0⟩
  ternary : s.rootTernary = 0
  untyped : s.typeNext = false

structure Scanner.Takes (s : Scanner) (word : Word) (t : Scanner) : Prop where
  ready : t.Ready
  offset : t.offset = s.offset + Text.byteSize word.text
  emitted : t.emitted =
    ⟨word.kind, word.text, ⟨s.offset, s.offset + Text.byteSize word.text⟩, s.spaced⟩ :: s.emitted

section Steps

variable {s : Scanner} {c : Char} {cs rest : Text}

theorem Scanner.Ready.closed (ready : s.Ready) : s.openAtEnd = none := by
  unfold Scanner.openAtEnd
  split
  · next top =>
    have same := ready.frames _ (by rw [top]; exact List.mem_cons_self)
    cases same
  · rw [List.findSome?_eq_none_iff]
    intro frame mem
    rw [ready.frames frame (List.mem_reverse.mp mem)]

theorem Scanner.Ready.pending (ready : s.Ready) : s.pendingTernary = 0 := by
  unfold Scanner.pendingTernary
  split
  · exact ready.ternary
  · next frame _ top => rw [ready.frames frame (by rw [top]; exact List.mem_cons_self)]

theorem Scanner.Ready.takes (ready : s.Ready) (word : Word) :
    s.Takes word (s.emit word.kind word.text) :=
  ⟨⟨ready.frames, ready.ternary, ready.untyped⟩, rfl, rfl⟩

theorem Scanner.Ready.takes_opening (ready : s.Ready) :
    s.Takes .opening ((s.emit .punctuation ['(']).enter .paren) := by
  refine ⟨⟨?_, ready.ternary, ready.untyped⟩, rfl, rfl⟩
  intro frame mem
  rcases List.mem_cons.mp mem with rfl | mem
  · rfl
  · exact ready.frames frame mem

theorem Scanner.Ready.takes_closing (ready : s.Ready) :
    s.Takes .closing ((s.emit .punctuation [')']).leave .paren) := by
  refine ⟨⟨?_, ready.ternary, ready.untyped⟩, rfl, rfl⟩
  intro frame mem
  exact ready.frames frame (getD_subset (fun rest => closeBracket_subset) frame mem)

theorem codeStep_name (start : isNameStart c = true) (s : Scanner) (cs : Text) :
    s.codeStep c cs = s.name c cs := by
  obtain ⟨blank, digit, point⟩ := isNameStart_solid start
  unfold Scanner.codeStep
  split
  case h_15 => simp [blank, digit, point, start]
  all_goals exact absurd start (by decide)

theorem codeStep_sign (start : isSignStart c = true) (next : cs.head?.any Char.isDigit = false)
    (s : Scanner) : s.codeStep c cs = .ok (s.operator c cs) := by
  simp only [isSignStart, Bool.and_eq_true, Bool.not_eq_true', and_assoc] at start
  obtain ⟨other, blank, digit, letter⟩ := start
  unfold Scanner.codeStep
  split
  case h_15 => simp [blank, digit, letter, Scanner.startsFraction, next]
  all_goals exact absurd other (by decide)

theorem word_free {name : Text} (ready : s.Ready) (free : Keyword.ofName? name = none)
    (typeWord : Text.followedBy ['t', 'y', 'p', 'e'] rest = false)
    (structWord : Text.followedBy ['s', 't', 'r', 'u', 'c', 't'] rest = false) :
    s.word name rest = s.emit .identifier name := by
  have same : ({ s with typeNext := false } : Scanner) = s := by rw [← ready.untyped]
  simp only [Scanner.word, ready.untyped, same, typeWord, structWord, free, Bool.false_and,
    Bool.and_false, Bool.false_eq_true, if_false]

theorem word_comparison {word : Word} (ready : s.Ready) (known : word = .isIn ∨ word = .isA)
    (rest : Text) : s.word word.text rest = s.emit word.kind word.text := by
  have same : ({ s with typeNext := false } : Scanner) = s := by rw [← ready.untyped]
  rcases known with rfl | rfl
  · simp only [Scanner.word, ready.untyped, same]
    rfl
  · simp only [Scanner.word, ready.untyped, same]
    rfl

/-- A word of letters goes up to the next blank. -/
theorem name_spaced {text : Text} (named : text.IsName) (ended : rest = [] ∨ Parted rest) :
    ∃ c cs, text = c :: cs ∧ isNameStart c = true ∧
      s.name c (cs ++ rest) = .ok (s.word text rest, rest) := by
  obtain ⟨c, cs, rfl, start, chars⟩ := named
  have cut : Text.cutName (cs ++ rest) = (cs, rest) := by
    rcases ended with rfl | parted
    · rw [List.append_nil, cutName_name chars]
    · rw [parted.cutName, cutName_name chars]
      rfl
  have plain : (rest.head? == some '\x22') = false := by
    rcases ended with rfl | ⟨d, v, rfl, rfl | rfl⟩
    · rfl
    · rfl
    · rfl
  refine ⟨c, cs, rfl, start, ?_⟩
  simp only [Scanner.name, cut, plain, Bool.false_eq_true, if_false]

theorem operator_spaced {op : Text} (ready : s.Ready) (known : op ∈ Formula.operators)
    (ended : rest = [] ∨ Parted rest) :
    ∃ c cs, op = c :: cs ∧ s.codeStep c (cs ++ rest) = .ok (s.emit .operator op, rest) := by
  have facts := List.all_eq_true.mp operators_found op known
  rcases op with _ | ⟨c, cs⟩
  · cases facts
  simp only [Bool.and_eq_true, Bool.not_eq_true', bne_iff_ne, ne_eq, beq_iff_eq, and_assoc] at facts
  obtain ⟨start, next, question, found⟩ := facts
  have found' : (Text.dottedOperator? (c :: (cs ++ rest))).or (Text.operator? (c :: (cs ++ rest))) =
      some (c :: cs) := by
    rcases ended with rfl | parted
    · rwa [List.append_nil]
    · rwa [operator_found parted]
  have next' : (cs ++ rest).head?.any Char.isDigit = false := by
    rcases ended with rfl | parted
    · rwa [List.append_nil]
    · rwa [parted.head (by decide)]
  have operated (tail : Text) : s.operate (c :: cs) tail = s.emit .operator (c :: cs) := by
    simp only [Scanner.operate, beq_eq_false_iff_ne.mpr question, ready.pending, Nat.lt_irrefl,
      decide_false, Bool.false_and, Bool.and_false, Bool.false_eq_true, if_false]
  refine ⟨c, cs, rfl, ?_⟩
  rw [codeStep_sign start next', operator_eq found', operated, List.length_cons, Nat.add_sub_cancel,
    List.drop_left]

end Steps

section Runs

variable {s : Scanner} {word : Word} {words : List Word}

theorem behind_ended (words : List Word) : Word.behind words = [] ∨ Parted (Word.behind words) := by
  cases words with
  | nil => exact .inl rfl
  | cons word words => exact .inr (parted_blank _)

/-- A step takes a whole word if a blank or the end of the text follows. -/
theorem run_word (ready : s.Ready) (usual : word.Usual)
    (follow : ∀ next ∈ words.head?, next.Usual ∧ word.Apart next) :
    ∃ t, s.run (Word.spaced (word :: words)) = t.run (Word.behind words) ∧ s.Takes word t := by
  have stepped {c : Char} {cs : Text} {t : Scanner} (text : word.text = c :: cs)
      (step : s.codeStep c (cs ++ Word.behind words) = .ok (t, Word.behind words)) :
      s.run (Word.spaced (word :: words)) = t.run (Word.behind words) := by
    rw [Word.spaced_cons, text, List.cons_append]
    exact run_of_step ((step_of_closed ready.closed _ _).trans step)
  have ended := behind_ended words
  have letters (named : word.text.IsName) :
      s.run (Word.spaced (word :: words)) =
        (s.word word.text (Word.behind words)).run (Word.behind words) := by
    obtain ⟨c, cs, text, start, step⟩ := @name_spaced s _ _ named ended
    exact stepped text ((codeStep_name start s _).trans step)
  cases usual with
  | name named free =>
    have others : ∀ next ∈ words.head?, next.Usual ∧ next.kind ≠ .identifier :=
      fun next mem => ⟨(follow next mem).1, (follow next mem).2 rfl⟩
    refine ⟨_, letters named, ?_⟩
    rw [Word.name, word_free ready free (followedBy_behind (.inl rfl) others)
      (followedBy_behind (.inr rfl) others)]
    exact ready.takes (.name _)
  | sign known =>
    obtain ⟨c, cs, text, step⟩ := operator_spaced ready known ended
    exact ⟨_, stepped text step, ready.takes (.sign _)⟩
  | isIn =>
    refine ⟨_, letters (by decide), ?_⟩
    rw [word_comparison ready (.inl rfl)]
    exact ready.takes .isIn
  | isA =>
    refine ⟨_, letters (by decide), ?_⟩
    rw [word_comparison ready (.inr rfl)]
    exact ready.takes .isA
  | opening => exact ⟨_, stepped rfl rfl, ready.takes_opening⟩
  | closing => exact ⟨_, stepped rfl rfl, ready.takes_closing⟩

/-- From a blank on, each word is a token. -/
theorem run_words (ready : s.Ready) (spaced : s.spaced = true) (usual : ∀ word ∈ words, word.Usual)
    (apart : words.IsChain Word.Apart) :
    ∃ t, s.run (Word.spaced words) = (t, none) ∧
      t.emitted = (Word.tokens s.offset words).reverse ++ s.emitted := by
  induction words generalizing s with
  | nil =>
    refine ⟨s, ?_, rfl⟩
    rw [show Word.spaced [] = [] from rfl, Scanner.run, ready.closed]
  | cons word words ih =>
    have own := usual word List.mem_cons_self
    have others : ∀ word ∈ words, word.Usual :=
      fun other mem => usual other (List.mem_cons_of_mem word mem)
    have follow : ∀ next ∈ words.head?, next.Usual ∧ word.Apart next := by
      intro next mem
      obtain ⟨tail, rfl⟩ := List.head?_eq_some_iff.mp mem
      exact ⟨others next List.mem_cons_self, (List.isChain_cons_cons.mp apart).1⟩
    obtain ⟨t, run, taken⟩ := run_word ready own follow
    rw [run]
    have first : t.emitted = word.token s.offset :: s.emitted := by
      rw [taken.emitted, spaced]
      rfl
    cases words with
    | nil =>
      refine ⟨t, ?_, first⟩
      rw [show Word.behind [] = [] from rfl, Scanner.run, taken.ready.closed]
    | cons next words =>
      rw [Word.behind, run_blank taken.ready.closed]
      obtain ⟨u, run', emitted⟩ := @ih (t.skip [' '])
        ⟨taken.ready.frames, taken.ready.ternary, taken.ready.untyped⟩ rfl others
        (List.isChain_cons_cons.mp apart).2
      refine ⟨u, run', ?_⟩
      have start : (t.skip [' ']).offset = s.offset + Text.byteSize word.text + 1 := by
        rw [← taken.offset]
        rfl
      change _ = (word.token s.offset :: Word.tokens _ (next :: words)).reverse ++ s.emitted
      rw [emitted, start, show (t.skip [' ']).emitted = t.emitted from rfl, first,
        List.reverse_cons, List.append_assoc]
      rfl

/-- Scanning words with one blank between any two of them gives their tokens. -/
theorem tokenizeRecovering_spaced (usual : ∀ word ∈ words, word.Usual)
    (apart : words.IsChain Word.Apart) :
    tokenizeRecovering (Word.spaced words) = Word.tokens 0 words := by
  have ready : Scanner.initial.Ready := ⟨by simp [Scanner.initial], rfl, rfl⟩
  obtain ⟨t, run, emitted⟩ := run_words ready rfl usual apart
  rw [tokenizeRecovering, run]
  simp [Scanner.tokens, emitted, Scanner.initial]

end Runs

end CellBindings
