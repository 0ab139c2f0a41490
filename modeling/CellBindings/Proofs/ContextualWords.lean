import CellBindings.Proofs.RecoveredTokens

/-!
Words that are keywords in company only. Behind `abstract` or `primitive`, `type` is a keyword, and
these two and `mutable` are keywords only if the word that they announce follows them. The scanner
looks ahead for that word, and remembers to make a keyword of it. What it looks for is found by the
next step that reads a name, which takes the word for what it is unless the name goes on with an
exclamation mark, or marks a string. In the second case the scanner still waits for `type`, up to
the next word.
-/

namespace CellBindings

def typeWord : Text := ['t', 'y', 'p', 'e']

def structWord : Text := ['s', 't', 'r', 'u', 'c', 't']

def abstractWord : Text := ['a', 'b', 's', 't', 'r', 'a', 'c', 't']

def primitiveWord : Text := ['p', 'r', 'i', 'm', 'i', 't', 'i', 'v', 'e']

def mutableWord : Text := ['m', 'u', 't', 'a', 'b', 'l', 'e']

namespace Token

def Kind.isWord : Kind → Bool
  | .keyword _ | .indexKeyword | .identifier => true
  | _ => false

def isReserved (t : Token) : Bool :=
  match t.kind with
  | .keyword _ => true
  | _ => false

def announces? (t : Token) : Option Text :=
  if t.isReserved then
    if t.text = abstractWord ∨ t.text = primitiveWord then some typeWord
    else if t.text = mutableWord then some structWord
    else none
  else none

/-- The token starts like the word, but is a longer name or the marker of a string. -/
def Strays (word : Text) (t : Token) : Prop :=
  t.kind = .identifier ∧ word ++ ['!'] <+: t.text ∨
    t.kind = .stringStart ∧ (word ++ ['!'] <+: t.text ∨ word ++ ['\x22'] <+: t.text)

end Token

def Announced (word : Text) (ts : List Token) : Prop := ∃ t ∈ ts.getLast?, t.announces? = some word

inductive Wordless : List Token → Prop where
  | nil : Wordless []
  | cons {t ts} : t.kind.isWord = false → Wordless ts → Wordless (t :: ts)
  | name {dollar t ts} : dollar.kind = .operator → dollar.text = ['$'] → t.kind = .identifier →
      Wordless ts → Wordless (dollar :: t :: ts)

/-- A keyword among the tokens announces `type`, but the marker of a string follows, and no word
since then. -/
def Lingers (ts : List Token) : Prop :=
  ∃ before keyword marker since, ts = before ++ keyword :: marker :: since ∧
    keyword.announces? = some typeWord ∧ marker.kind = .stringStart ∧ Wordless since

/-- The token fits behind others: it is the word that they announce, unless it strays from it, and a
`type` is a keyword exactly if it is announced, unless an older announcement lingers. -/
structure Token.Suits (t : Token) (ts : List Token) : Prop where
  announced : ∀ word, Announced word ts → (t.isReserved = true ∧ t.text = word) ∨ t.Strays word
  type : t.text = typeWord → ¬ Lingers ts → (t.isReserved = true ↔ Announced typeWord ts)

def Suited (ts : List Token) : Prop := ∀ front t back, ts = front ++ t :: back → t.Suits front

section Tokens

variable {ts fresh : List Token} {t : Token} {word other : Text}

theorem announces?_of_not_reserved (h : t.isReserved = false) : t.announces? = none := by
  simp [Token.announces?, h]

theorem announced_concat : Announced word (ts ++ [t]) ↔ t.announces? = some word := by
  simp [Announced]

theorem Announced.unique (h : Announced word ts) (k : Announced other ts) : word = other := by
  obtain ⟨t, last, announces⟩ := h
  obtain ⟨u, last', announces'⟩ := k
  obtain rfl : t = u := Option.some.inj (last.symm.trans last')
  exact Option.some.inj (announces.symm.trans announces')

theorem Announced.word_eq (h : Announced word ts) : word = typeWord ∨ word = structWord := by
  obtain ⟨t, -, announces⟩ := h
  unfold Token.announces? at announces
  split at announces
  · split at announces
    · exact .inl (Option.some.inj announces).symm
    · split at announces
      · exact .inr (Option.some.inj announces).symm
      · cases announces
  · cases announces

theorem Wordless.append (h : Wordless ts) (k : Wordless fresh) : Wordless (ts ++ fresh) := by
  induction h with
  | nil => exact k
  | cons plain _ ih => exact .cons plain ih
  | name sign dollar named _ ih => exact .name sign dollar named ih

theorem Token.isReserved_of_not_isWord (h : t.kind.isWord = false) : t.isReserved = false := by
  unfold Token.isReserved
  split
  · next same =>
    rw [same] at h
    cases h
  · rfl

theorem Wordless.not_reserved (h : Wordless ts) : ∀ t ∈ ts, t.isReserved = false := by
  induction h with
  | nil => exact List.forall_mem_nil _
  | cons plain _ ih => exact List.forall_mem_cons.mpr ⟨Token.isReserved_of_not_isWord plain, ih⟩
  | name sign _ named _ ih =>
    refine List.forall_mem_cons.mpr ⟨?_, List.forall_mem_cons.mpr ⟨?_, ih⟩⟩
    · rw [Token.isReserved, sign]
    · rw [Token.isReserved, named]

theorem Lingers.marked (h : Lingers ts) : ∃ t ∈ ts, t.kind = .stringStart := by
  obtain ⟨before, keyword, marker, since, rfl, -, starts, -⟩ := h
  exact ⟨marker, by simp, starts⟩

theorem Lingers.append (h : Lingers ts) (k : Wordless fresh) : Lingers (ts ++ fresh) := by
  obtain ⟨before, keyword, marker, since, rfl, announces, starts, silent⟩ := h
  exact ⟨before, keyword, marker, since ++ fresh, by simp, announces, starts, silent.append k⟩

theorem Suited.left (h : Suited (ts ++ fresh)) : Suited ts := by
  rintro front t back rfl
  exact h front t (back ++ fresh) (by simp)

/-- One of some tokens and a last one is the last, or one of the others. -/
theorem concat_cases {last : Token} {front back : List Token}
    (h : ts ++ [last] = front ++ t :: back) :
    (ts = front ∧ last = t) ∨ ∃ inner, ts = front ++ t :: inner := by
  rcases List.eq_nil_or_concat back with rfl | ⟨inner, other, rfl⟩
  · obtain ⟨same, tail⟩ := List.append_inj' h rfl
    exact .inl ⟨same, List.head_eq_of_cons_eq tail⟩
  · rw [List.concat_eq_append, ← List.cons_append, ← List.append_assoc] at h
    exact .inr ⟨inner, (List.append_inj' h rfl).1⟩

theorem Suited.concat (h : Suited ts) (k : t.Suits ts) : Suited (ts ++ [t]) := by
  intro front u back split
  rcases concat_cases split with ⟨rfl, rfl⟩ | ⟨inner, same⟩
  · exact k
  · exact h front u inner same

/-- Behind tokens that announce nothing, a token that is no keyword suits. -/
theorem suits_of_not_reserved (silent : ∀ word, ¬ Announced word ts)
    (plain : t.isReserved = false) : t.Suits ts := by
  constructor
  · exact fun word announced => absurd announced (silent word)
  · intro _ _
    simp [plain, silent typeWord]

theorem not_announced_append (silent : ∀ word, ¬ Announced word ts)
    (plain : ∀ t ∈ fresh, t.isReserved = false) (word : Text) : ¬ Announced word (ts ++ fresh) := by
  rcases List.eq_nil_or_concat fresh with rfl | ⟨front, last, rfl⟩
  · rw [List.append_nil]
    exact silent word
  · rw [List.concat_eq_append, ← List.append_assoc, announced_concat,
      announces?_of_not_reserved (plain last (by simp))]
    simp

theorem Suited.append (h : Suited ts) (silent : ∀ word, ¬ Announced word ts)
    (plain : ∀ t ∈ fresh, t.isReserved = false) : Suited (ts ++ fresh) := by
  induction fresh generalizing ts with
  | nil => rwa [List.append_nil]
  | cons t fresh ih =>
    obtain ⟨first, others⟩ := List.forall_mem_cons.mp plain
    have next := h.concat (suits_of_not_reserved silent first)
    have still := not_announced_append silent (List.forall_mem_singleton.mpr first)
    rw [← List.singleton_append, ← List.append_assoc]
    exact ih next still others

end Tokens

structure Scanner.Proceeds (s t : Scanner) : Prop where
  tokens : ∃ fresh, t.tokens = s.tokens ++ fresh ∧ Wordless fresh
  typeNext : t.typeNext = s.typeNext

def Scanner.InCode (s : Scanner) : Prop :=
  ∀ frame ∈ s.frames.head?, ∀ delimiter start, frame.kind ≠ .string delimiter start

namespace Scanner.Proceeds

variable {s t u : Scanner}

theorem steer (emitted : t.emitted = s.emitted) (typeNext : t.typeNext = s.typeNext) :
    s.Proceeds t :=
  ⟨⟨[], by simp [Scanner.tokens, emitted], .nil⟩, typeNext⟩

theorem trans (h : s.Proceeds t) (k : t.Proceeds u) : s.Proceeds u := by
  obtain ⟨⟨fresh, tokens, plain⟩, flag⟩ := h
  obtain ⟨⟨more, tokens', plain'⟩, flag'⟩ := k
  exact ⟨⟨fresh ++ more, by rw [tokens', tokens, List.append_assoc], plain.append plain'⟩,
    flag'.trans flag⟩

theorem emit {kind : Token.Kind} (plain : kind.isWord = false) (lexeme : Text) :
    s.Proceeds (s.emit kind lexeme) :=
  ⟨⟨[_], List.reverse_cons, .cons plain .nil⟩, rfl⟩

/-- A name that is interpolated is no word of the program. -/
theorem interpolate (name : Text) :
    s.Proceeds ((s.emit .operator ['$']).emit .identifier name) :=
  ⟨⟨_, @List.reverse_append _ [_, _] s.emitted, .name rfl rfl rfl .nil⟩, rfl⟩

theorem setTernary (s : Scanner) (count : Nat) : s.Proceeds (s.setTernary count) := by
  apply steer (Steers.setTernary s count).emitted
  unfold Scanner.setTernary
  split
  · rfl
  · rfl

end Scanner.Proceeds

section Steps

variable {s t : Scanner} {c : Char} {cs rest : Text}

theorem lineBreak_proceeds (s : Scanner) : s.Proceeds s.lineBreak := by
  unfold Scanner.lineBreak
  split
  · dsimp only
    split
    · exact ((Scanner.Proceeds.setTernary s 0).trans (.emit rfl ['\n'])).trans (.steer rfl rfl)
    · exact (Scanner.Proceeds.setTernary s 0).trans (.steer rfl rfl)
  · exact .steer rfl rfl

theorem comment_proceeds (ok : s.comment cs = .ok (t, rest)) : s.Proceeds t := by
  obtain ⟨gap, rfl⟩ := comment_skips ok
  exact .steer rfl rfl

theorem quote_proceeds (ok : s.quote cs = .ok (t, rest)) : s.Proceeds t := by
  unfold Scanner.quote at ok
  split at ok
  · cases ok
    exact .emit rfl _
  · split at ok
    · cases ok
    · cases ok
      exact .emit rfl _

theorem atSign_proceeds (s : Scanner) (cs : Text) : s.Proceeds (s.atSign cs).1 := by
  unfold Scanner.atSign
  split
  · exact .emit rfl _
  · split
    · exact .emit rfl _
    · exact .emit rfl _
  · exact .emit rfl _

theorem number_proceeds (s : Scanner) (c : Char) (cs : Text) : s.Proceeds (s.number c cs).1 := by
  rcases cut : Text.cutNumber c cs with ⟨float, digits, rest⟩
  simp only [Scanner.number, cut]
  cases float <;> exact .emit rfl _

theorem openString_proceeds (s : Scanner) (marker : Text) (delimiter : Delimiter) :
    s.Proceeds (s.openString marker delimiter) :=
  (Scanner.Proceeds.emit rfl _).trans (.steer rfl rfl)

/-- A string without interpolation is a marker, and what follows it up to its end. -/
theorem opaqueString_proceeds {marker text : Text}
    (ok : s.opaqueString marker text = .ok (t, rest)) :
    (s.emit .stringStart (marker ++ (Delimiter.ofQuotes text).text)).Proceeds t := by
  unfold Scanner.opaqueString at ok
  dsimp only at ok
  split at ok
  · cases ok
  · next inside back _ =>
    cases ok
    split
    · exact .emit rfl _
    · exact (Scanner.Proceeds.emit rfl _).trans (.emit rfl _)

theorem operator_proceeds (s : Scanner) (c : Char) (cs : Text) :
    s.Proceeds (s.operator c cs).1 := by
  unfold Scanner.operator
  split
  · exact .emit rfl _
  · dsimp only
    split
    · exact (Scanner.Proceeds.setTernary s _).trans (.emit rfl _)
    · split
      · exact (Scanner.Proceeds.setTernary s _).trans (.emit rfl _)
      · exact .emit rfl _

theorem stringStep_proceeds (s : Scanner) (delimiter : Delimiter) (c : Char) (cs : Text) :
    s.Proceeds (s.stringStep delimiter c cs).1 := by
  have chunk (text : Text) : s.Proceeds (s.emit .stringChunk text) := .emit rfl text
  have dollar : s.Proceeds (s.emit .operator ['$']) := .emit rfl _
  unfold Scanner.stringStep
  dsimp only
  split
  · exact (Scanner.Proceeds.emit rfl _).trans (.steer rfl rfl)
  · split
    · split
      · exact (dollar.trans (.emit rfl _)).trans (.steer rfl rfl)
      · split
        · exact .interpolate _
        · exact chunk _
      · exact chunk _
    · split
      · split
        · exact chunk _
        · exact chunk _
      · exact chunk _

/-- A name is a word, or the marker of a string. -/
theorem name_marks_or_word (ok : s.name c cs = .ok (t, rest)) :
    (∃ close, ['\x22'] <+: close ∧
      (s.emit .stringStart (c :: (Text.cutName cs).1 ++ close)).Proceeds t) ∨
    rest = (Text.cutName cs).2 ∧ t = s.word (c :: (Text.cutName cs).1) rest := by
  unfold Scanner.name at ok
  dsimp only at ok
  split at ok
  · refine .inl ⟨_, ofQuotes_quote (Text.cutName cs).2, ?_⟩
    split at ok
    · cases ok
      exact .steer rfl rfl
    · exact opaqueString_proceeds ok
  · cases ok
    exact .inr ⟨rfl, rfl⟩

theorem name_proceeds_or_word (ok : s.name c cs = .ok (t, rest)) :
    s.Proceeds t ∨ rest = (Text.cutName cs).2 ∧ t = s.word (c :: (Text.cutName cs).1) rest := by
  rcases name_marks_or_word ok with ⟨close, -, marks⟩ | word
  · exact .inl ((Scanner.Proceeds.emit rfl _).trans marks)
  · exact .inr word

theorem codeStep_proceeds_or_word (ok : s.codeStep c cs = .ok (t, rest)) :
    s.Proceeds t ∨ rest = (Text.cutName cs).2 ∧ t = s.word (c :: (Text.cutName cs).1) rest := by
  unfold Scanner.codeStep at ok
  split at ok
  case h_1 =>
    cases ok
    exact .inl (lineBreak_proceeds s)
  case h_2 => exact .inl (comment_proceeds ok)
  case h_3 | h_4 =>
    cases ok
    exact .inl (.emit rfl _)
  case h_5 | h_6 | h_7 | h_8 | h_9 | h_10 =>
    cases ok
    exact .inl ((Scanner.Proceeds.emit rfl _).trans (.steer rfl rfl))
  case h_11 | h_12 =>
    cases ok
    exact .inl (openString_proceeds ..)
  case h_13 => exact .inl (quote_proceeds ok)
  case h_14 =>
    have proceeds := atSign_proceeds s cs
    rw [Except.ok.inj ok] at proceeds
    exact .inl proceeds
  case h_15 =>
    split at ok
    · cases ok
      exact .inl (.steer rfl rfl)
    · split at ok
      · have proceeds := number_proceeds s c cs
        rw [Except.ok.inj ok] at proceeds
        exact .inl proceeds
      · split at ok
        · exact name_proceeds_or_word ok
        · have proceeds := operator_proceeds s c cs
          rw [Except.ok.inj ok] at proceeds
          exact .inl proceeds

theorem step_of_inCode (h : s.InCode) (c : Char) (cs : Text) : s.step c cs = s.codeStep c cs := by
  unfold Scanner.step
  split
  · next same => exact absurd rfl (h _ (by rw [same]; rfl) _ _)
  · rfl

/-- Each step but that of a word proceeds. -/
theorem step_proceeds_or_word (ok : s.step c cs = .ok (t, rest)) :
    s.Proceeds t ∨
      s.InCode ∧ rest = (Text.cutName cs).2 ∧ t = s.word (c :: (Text.cutName cs).1) rest := by
  unfold Scanner.step at ok
  split at ok
  · next delimiter _ _ _ _ =>
    have proceeds := stringStep_proceeds s delimiter c cs
    rw [Except.ok.inj ok] at proceeds
    exact .inl proceeds
  · next code =>
    refine (codeStep_proceeds_or_word ok).imp_right fun word => ⟨?_, word⟩
    rintro ⟨kind, pending⟩ first delimiter start rfl
    obtain ⟨outer, same⟩ := List.head?_eq_some_iff.mp first
    exact code delimiter start pending outer same

end Steps

structure Scanner.Awaits (s : Scanner) (word rest : Text) : Prop where
  code : s.InCode
  flag : word = typeWord → s.typeNext = true
  ahead : ∃ blanks tail, rest = blanks ++ (word ++ tail) ∧ (∀ c ∈ blanks, c = ' ' ∨ c = '\t') ∧
    tail.head?.any isNameChar = false

structure Scanner.Utters (s : Scanner) (name rest : Text) (t : Scanner) (token : Token) : Prop where
  tokens : t.tokens = s.tokens ++ [token]
  text : token.text = name
  type : name = typeWord → (token.isReserved = true ↔ s.typeNext = true)
  struct : name = structWord → token.isReserved = true
  marked : '!' ∈ name → token.kind = .identifier
  awaits : ∀ word, token.announces? = some word → t.Awaits word rest
  typeNext : t.typeNext = true → token.announces? = some typeWord

section Words

variable {s : Scanner} {name rest word : Text}

theorem followedBy_ahead (h : Text.followedBy word rest = true) :
    ∃ blanks tail, rest = blanks ++ (word ++ tail) ∧ (∀ c ∈ blanks, c = ' ' ∨ c = '\t') ∧
      tail.head?.any isNameChar = false := by
  simp only [Text.followedBy, Bool.and_eq_true, Bool.not_eq_true'] at h
  obtain ⟨⟨-, starts⟩, ends⟩ := h
  refine ⟨rest.takeWhile fun c => c == ' ' || c == '\t', _, ?_, ?_, ends⟩
  · rw [List.prefix_iff_eq_append.mp ( List.isPrefixOf_iff_prefix.mp starts),
      List.takeWhile_append_dropWhile]
  · intro c mem
    simpa using List.mem_takeWhile_imp mem

/-- A reserved word is none of those that are keywords in company only. -/
theorem reserved_name {keyword : Keyword} (h : Keyword.ofName? name = some keyword) :
    name ≠ typeWord ∧ name ≠ abstractWord ∧ name ≠ primitiveWord ∧ name ≠ mutableWord ∧
      '!' ∉ name := by
  have all : ∀ p ∈ Keyword.reserved, p.1 ≠ typeWord ∧ p.1 ≠ abstractWord ∧ p.1 ≠ primitiveWord ∧
      p.1 ≠ mutableWord ∧ '!' ∉ p.1 := by decide
  obtain ⟨before, after, same, -⟩ := List.lookup_eq_some_iff.mp h
  exact all (name, keyword) (by simp [same])

/-- A token that announces nothing, after which `type` is not waited for. -/
theorem utters_quiet {t : Scanner} {token : Token} (emitted : t.emitted = token :: s.emitted)
    (text : token.text = name) (flag : t.typeNext = false) (silent : token.announces? = none)
    (type : name = typeWord → (token.isReserved = true ↔ s.typeNext = true))
    (struct : name = structWord → token.isReserved = true)
    (marked : '!' ∈ name → token.kind = .identifier) : s.Utters name rest t token where
  tokens := by rw [Scanner.tokens, emitted, List.reverse_cons, Scanner.tokens]
  text := text
  type := type
  struct := struct
  marked := marked
  awaits := by simp [silent]
  typeNext := by simp [flag]

/-- A reserved word announces nothing, whatever becomes of it. -/
theorem utters_reserved {t : Scanner} {token : Token} {keyword : Keyword}
    (known : Keyword.ofName? name = some keyword) (emitted : t.emitted = token :: s.emitted)
    (text : token.text = name) (flag : t.typeNext = false)
    (struct : keyword ≠ .structKw ∨ token.isReserved = true) : s.Utters name rest t token := by
  obtain ⟨type, abs, primitive, mutable, unmarked⟩ := reserved_name known
  apply utters_quiet emitted text flag
  · simp [Token.announces?, text, abs, primitive, mutable]
  · exact fun same => absurd same type
  · rintro rfl
    rcases struct with other | reserved
    · exact absurd (Option.some.inj known).symm other
    · exact reserved
  · exact fun mem => absurd mem unmarked

/-- A word that announces another one, which stands ahead. -/
theorem utters_announcing {t : Scanner} {token : Token} (emitted : t.emitted = token :: s.emitted)
    (text : token.text = name) (plain : name ≠ typeWord ∧ name ≠ structWord ∧ '!' ∉ name)
    (announces : token.announces? = some word) (code : t.InCode)
    (flag : t.typeNext = true ↔ word = typeWord) (follows : Text.followedBy word rest = true) :
    s.Utters name rest t token where
  tokens := by rw [Scanner.tokens, emitted, List.reverse_cons, Scanner.tokens]
  text := text
  type := fun same => absurd same plain.1
  struct := fun same => absurd same plain.2.1
  marked := fun mem => absurd mem plain.2.2
  awaits := by
    intro other same
    obtain rfl : word = other := Option.some.inj (announces.symm.trans same)
    exact ⟨code, flag.mpr, followedBy_ahead follows⟩
  typeNext := fun waits => by rw [announces, flag.mp waits]

theorem inCode_block (s : Scanner) : (s.enter .block).InCode := by
  rintro frame first delimiter start
  cases first
  simp

theorem word_utters (code : s.InCode) (name rest : Text) :
    ∃ token, s.Utters name rest (s.word name rest) token := by
  -- the token of any branch, up to its kind
  let token (kind : Token.Kind) : Token :=
    ⟨kind, name, ⟨s.offset, s.offset + name.byteSize⟩, s.spaced⟩
  unfold Scanner.word
  dsimp only
  split
  · next expected =>
    obtain ⟨flag, rfl⟩ : s.typeNext = true ∧ name = typeWord := by simpa [typeWord] using expected
    exact ⟨token (.keyword .typeKw), utters_quiet rfl rfl rfl rfl (fun _ => by simp [flag]; rfl)
      (fun _ => rfl) (fun mem => absurd mem (by decide))⟩
  split
  · next announces =>
    obtain ⟨rfl, follows⟩ : name = abstractWord ∧ Text.followedBy typeWord rest = true := by
      simpa [abstractWord, typeWord] using announces
    exact ⟨token (.keyword .abstractKw), utters_announcing rfl rfl (by decide) rfl
      (inCode_block _) (by simp) follows⟩
  split
  · next announces =>
    obtain ⟨rfl, follows⟩ : name = primitiveWord ∧ Text.followedBy typeWord rest = true := by
      simpa [primitiveWord, typeWord] using announces
    exact ⟨token (.keyword .primitiveKw), utters_announcing rfl rfl (by decide) rfl
      (inCode_block _) (by simp) follows⟩
  split
  · next announces =>
    obtain ⟨rfl, follows⟩ : name = mutableWord ∧ Text.followedBy structWord rest = true := by
      simpa [mutableWord, structWord] using announces
    exact ⟨token (.keyword .mutableKw), utters_announcing rfl rfl (by decide) rfl
      code (by simp [Scanner.emit, structWord, typeWord]) follows⟩
  next unexpected _ _ _ =>
  split
  · next unknown =>
    refine ⟨token .identifier, utters_quiet rfl rfl rfl rfl ?_ ?_ fun _ => rfl⟩
    · rintro rfl
      have unset : s.typeNext = false := by simpa [typeWord] using unexpected
      rw [unset]
      exact Iff.rfl
    · rintro rfl
      exact absurd unknown (by decide)
  · next known =>
    split
    · exact ⟨token .indexKeyword, utters_reserved known rfl rfl rfl (.inl (by decide))⟩
    · exact ⟨token (.keyword .beginKw), utters_reserved known rfl rfl rfl (.inr rfl)⟩
  · next known =>
    split
    · exact ⟨token .indexKeyword, utters_reserved known rfl rfl rfl (.inl (by decide))⟩
    · exact ⟨token (.keyword .endKw), utters_reserved known rfl rfl rfl (.inr rfl)⟩
  · next keyword _ _ known =>
    split
    · exact ⟨token (.keyword keyword), utters_reserved known rfl rfl rfl (.inr rfl)⟩
    · exact ⟨token (.keyword keyword), utters_reserved known rfl rfl rfl (.inr rfl)⟩

theorem cutName_word {tail : Text} (chars : word.all isNameChar = true) :
    Text.cutName (word ++ tail) = (word ++ (Text.cutName tail).1, (Text.cutName tail).2) := by
  induction word with
  | nil => rfl
  | cons c cs ih =>
    obtain ⟨char, chars⟩ := Bool.and_eq_true_iff.mp chars
    simp [Text.cutName, char, ih chars]

theorem cutName_apart {tail : Text} (apart : tail.head?.any isNameChar = false) :
    (Text.cutName tail).1 = [] ∨ ['!'] <+: (Text.cutName tail).1 := by
  cases tail with
  | nil => exact .inl rfl
  | cons c cs =>
    have other : isNameChar c = false := apart
    rw [Text.cutName]
    split
    · next taken =>
      obtain ⟨rfl, -⟩ : c = '!' ∧ _ := by simpa [other] using taken
      exact .inr (List.prefix_append ['!'] _)
    · exact .inl rfl

/-- The name that is read where a word stands ahead is the word, or goes on with an exclamation
mark. -/
theorem name_ahead {c : Char} {cs tail : Text} (words : word = typeWord ∨ word = structWord)
    (ahead : c :: cs = word ++ tail) (apart : tail.head?.any isNameChar = false) :
    c :: (Text.cutName cs).1 = word ∨ word ++ ['!'] <+: c :: (Text.cutName cs).1 := by
  have same : c :: (Text.cutName cs).1 = word ++ (Text.cutName tail).1 := by
    obtain ⟨first, others, rfl, chars⟩ :
        ∃ first others, word = first :: others ∧ others.all isNameChar = true := by
      rcases words with rfl | rfl
      · exact ⟨'t', ['y', 'p', 'e'], rfl, by decide⟩
      · exact ⟨'s', ['t', 'r', 'u', 'c', 't'], rfl, by decide⟩
    obtain ⟨rfl, rfl⟩ := List.cons.inj ahead
    simp [cutName_word chars]
  rw [same]
  rcases cutName_apart apart with none | mark
  · exact .inl (by rw [none, List.append_nil])
  · exact .inr ((List.prefix_append_right_inj word).mpr mark)

end Words

/-- What the scanner knows of announcements, with the text ahead of it. Its tokens suit one another,
a word that they announce stands ahead, and it waits for `type` only behind an announcement. -/
structure Scanner.Minds (s : Scanner) (rest : Text) : Prop where
  suited : Suited s.tokens
  awaits : ∀ word, Announced word s.tokens → s.Awaits word rest
  waits : s.typeNext = true → Announced typeWord s.tokens ∨ Lingers s.tokens

namespace Scanner.Minds

variable {s t : Scanner} {c : Char} {cs text rest name : Text}

theorem initial (text : Text) : Scanner.initial.Minds text where
  suited := by
    intro front t back split
    simp [Scanner.tokens, Scanner.initial] at split
  awaits := by
    rintro word ⟨t, last, -⟩
    cases last
  waits := by
    intro waits
    cases waits

/-- Where nothing is announced, reading anything but a word keeps to the rules. -/
theorem proceeds (h : s.Minds text) (silent : ∀ word, ¬ Announced word s.tokens)
    (k : s.Proceeds t) (rest : Text) : t.Minds rest := by
  obtain ⟨⟨fresh, tokens, wordless⟩, flag⟩ := k
  constructor
  · rw [tokens]
    exact h.suited.append silent wordless.not_reserved
  · intro word announced
    rw [tokens] at announced
    exact absurd announced (not_announced_append silent wordless.not_reserved word)
  · intro waits
    rcases h.waits (flag.symm.trans waits) with announced | lingers
    · exact absurd announced (silent typeWord)
    · rw [tokens]
      exact .inr (lingers.append wordless)

/-- A word keeps to the rules if it starts like the one that is announced. -/
theorem utters {token : Token} (h : s.Minds text) (k : s.Utters name rest t token)
    (ahead : ∀ word, Announced word s.tokens → name = word ∨ word ++ ['!'] <+: name) :
    t.Minds rest := by
  constructor
  · rw [k.tokens]
    refine h.suited.concat ⟨?_, ?_⟩
    · intro word announced
      rcases ahead word announced with rfl | marked
      · refine .inl ⟨?_, k.text⟩
        rcases announced.word_eq with rfl | rfl
        · exact (k.type rfl).mpr ((h.awaits _ announced).flag rfl)
        · exact k.struct rfl
      · have mark : '!' ∈ name := marked.subset (by simp)
        exact .inr (.inl ⟨k.marked mark, by rwa [k.text]⟩)
    · intro same settled
      rw [k.type (k.text.symm.trans same)]
      constructor
      · exact fun waits => (h.waits waits).resolve_right settled
      · exact fun announced => (h.awaits _ announced).flag rfl
  · intro word announced
    rw [k.tokens, announced_concat] at announced
    exact k.awaits word announced
  · intro waits
    rw [k.tokens, announced_concat]
    exact .inl (k.typeNext waits)

/-- The marker of a string in place of the word that is announced. -/
theorem marks {word close : Text} (h : s.Minds text) (announced : Announced word s.tokens)
    (ahead : name = word ∨ word ++ ['!'] <+: name) (quoted : ['\x22'] <+: close)
    (k : (s.emit .stringStart (name ++ close)).Proceeds t) (rest : Text) : t.Minds rest := by
  let marker : Token := ⟨.stringStart, name ++ close,
    ⟨s.offset, s.offset + (name ++ close).byteSize⟩, s.spaced⟩
  have tokens : (s.emit .stringStart (name ++ close)).tokens = s.tokens ++ [marker] :=
    List.reverse_cons
  have silent (other : Text) : ¬ Announced other (s.tokens ++ [marker]) := by
    rw [announced_concat, announces?_of_not_reserved rfl]
    simp
  have strays : marker.Strays word := by
    refine .inr ⟨rfl, ?_⟩
    rcases ahead with rfl | marked
    · exact .inr ((List.prefix_append_right_inj name).mpr quoted)
    · exact .inl (marked.trans (List.prefix_append name close))
  have minds : (s.emit .stringStart (name ++ close)).Minds text := by
    constructor
    · rw [tokens]
      refine h.suited.concat ⟨?_, ?_⟩
      · intro other again
        rw [← announced.unique again]
        exact .inr strays
      · intro same _
        have mark : '\x22' ∈ typeWord := by
          rw [← same]
          exact List.mem_append_right name (quoted.subset (by simp))
        exact absurd mark (by decide)
    · intro other again
      rw [tokens] at again
      exact absurd again (silent other)
    · intro waits
      rw [tokens]
      rcases h.waits waits with ⟨keyword, last, announces⟩ | lingers
      · obtain ⟨before, same⟩ := List.getLast?_eq_some_iff.mp last
        exact .inr ⟨before, keyword, marker, [], by simp [same], announces, rfl, .nil⟩
      · exact .inr (lingers.append (.cons rfl .nil))
  exact minds.proceeds (by rwa [tokens]) k rest

/-- A blank in front of the word that is announced changes nothing. -/
theorem skip {word : Text} (h : s.Minds text) (announced : Announced word s.tokens)
    (awaits : s.Awaits word rest) (gap : Text) : (s.skip gap).Minds rest := by
  refine ⟨h.suited, fun other again => ?_, h.waits⟩
  obtain rfl := announced.unique again
  exact ⟨awaits.code, awaits.flag, awaits.ahead⟩

theorem announced_step {word : Text} (h : s.Minds (c :: cs)) (announced : Announced word s.tokens)
    (ok : s.step c cs = .ok (t, rest)) : t.Minds rest := by
  have awaits := h.awaits word announced
  obtain ⟨blanks, tail, ahead, blank, apart⟩ := awaits.ahead
  rw [step_of_inCode awaits.code] at ok
  cases blanks with
  | cons d blanks =>
    obtain ⟨rfl, rfl⟩ := List.cons.inj ahead
    have skips : s.codeStep c (blanks ++ (word ++ tail)) =
        .ok (s.skip [c], blanks ++ (word ++ tail)) := by
      rcases blank c List.mem_cons_self with rfl | rfl
      · rfl
      · rfl
    cases skips.symm.trans ok
    apply h.skip announced
    exact ⟨awaits.code, awaits.flag, blanks, tail, rfl,
      fun d mem => blank d (List.mem_cons_of_mem c mem), apart⟩
  | nil =>
    have names : s.codeStep c cs = s.name c cs := by
      rcases announced.word_eq with rfl | rfl
      · obtain ⟨rfl, -⟩ := List.cons.inj ahead
        rfl
      · obtain ⟨rfl, -⟩ := List.cons.inj ahead
        rfl
    have start := name_ahead announced.word_eq ahead apart
    rcases name_marks_or_word (names.symm.trans ok) with ⟨close, quoted, marks⟩ | ⟨-, rfl⟩
    · exact h.marks announced start quoted marks rest
    · obtain ⟨token, utters⟩ := word_utters awaits.code (c :: (Text.cutName cs).1) rest
      exact h.utters utters fun other again => announced.unique again ▸ start

theorem step (h : s.Minds (c :: cs)) (ok : s.step c cs = .ok (t, rest)) : t.Minds rest := by
  by_cases silent : ∀ word, ¬ Announced word s.tokens
  · rcases step_proceeds_or_word ok with proceeds | ⟨code, -, rfl⟩
    · exact h.proceeds silent proceeds rest
    · obtain ⟨token, utters⟩ := word_utters code (c :: (Text.cutName cs).1) rest
      exact h.utters utters fun word announced => absurd announced (silent word)
  · obtain ⟨word, announced⟩ := not_forall_not.mp silent
    exact h.announced_step announced ok

end Scanner.Minds

theorem Turns.minds {n : Nat} {s t : Scanner} {rest after : Text} (h : Turns n s rest t after)
    (minds : s.Minds rest) : t.Minds after := by
  induction h with
  | none => exact minds
  | next ok _ ih => exact ih (minds.step ok)

theorem Construct.Opens.ne_typeWord {construct : Construct} {text : Text}
    (h : construct.Opens text) : text ≠ typeWord := by
  rintro rfl
  cases construct with
  | comment =>
    have opened : ['#', '='] <+: typeWord := h
    exact absurd opened (by decide)
  | char =>
    have opened : ['\x27'] <+: typeWord := h
    exact absurd opened (by decide)
  | string =>
    rcases h with quote | tick | ⟨name, -, quoted⟩
    · exact absurd quote (by decide)
    · exact absurd tick (by decide)
    · have mark : '\x22' ∈ typeWord := quoted.subset (by simp)
      exact absurd mark (by decide)

/-- The recovered tokens suit one another, up to the one for the rest of the text. -/
theorem tokenizeRecovering_suited (text : Text) :
    Suited (tokenizeRecovering text) ∨ ∃ kept last, tokenizeRecovering text = kept ++ [last] ∧
      Suited kept ∧ last.kind = .error ∧ last.text ≠ typeWord := by
  obtain ⟨n, after, turns, halts⟩ := run_turns .initial text
  have accounted := (Accounted.initial text).moves turns.moves
  have opens := halts.opens accounted.toPlaced (turns.enclosed .initial)
  have places := halts.opensAt accounted.toPlaced
  have suited := (turns.minds (.initial text)).suited
  unfold tokenizeRecovering
  generalize Scanner.initial.run text = result at accounted opens places suited ⊢
  obtain ⟨s, failure⟩ := result
  cases failure with
  | none => exact .inl suited
  | some e =>
    obtain ⟨front, back, rfl, size, opened⟩ := opens e rfl
    obtain ⟨dropped, kept, -⟩ := accounted.before_open (places e rfl)
    refine .inr ⟨_, _, rfl, ?_, rfl, ?_⟩
    · rw [kept] at suited
      exact suited.left
    · rw [← size, Text.splitAt?_append]
      exact opened.ne_typeWord

/-- In the tokens of a text, recovered or not, a word that is announced comes right behind the
announcement, as a keyword, unless the text is left open there or the word is part of a longer name
or of the marker of a string. And `type` is a keyword exactly behind an announcement, unless an older
one still holds: a marker took the place of what it announced, and no word was read since then. -/
theorem contextual_keywords {text : Text} {ts front back : List Token} {t : Token}
    (read : tokenize text = .ok ts ∨ tokenizeRecovering text = ts)
    (split : ts = front ++ t :: back) :
    (∀ word, Announced word front →
      t.kind = .error ∨ (t.isReserved = true ∧ t.text = word) ∨ t.Strays word) ∧
    (t.text = typeWord → ¬ Lingers front → (t.isReserved = true ↔ Announced typeWord front)) := by
  obtain rfl : tokenizeRecovering text = ts := read.elim tokenizeRecovering_of_ok id
  have within (suits : t.Suits front) : (∀ word, Announced word front →
      t.kind = .error ∨ (t.isReserved = true ∧ t.text = word) ∨ t.Strays word) ∧
      (t.text = typeWord → ¬ Lingers front → (t.isReserved = true ↔ Announced typeWord front)) :=
    ⟨fun word announced => .inr (suits.announced word announced), suits.type⟩
  rcases tokenizeRecovering_suited text with suited | ⟨kept, last, same, suited, error, other⟩
  · exact within (suited front t back split)
  · rcases concat_cases (same.symm.trans split) with ⟨-, rfl⟩ | ⟨inner, split⟩
    · exact ⟨fun _ _ => .inl error, fun type => absurd type other⟩
    · exact within (suited front t inner split)

/-- Only the first `type` behind the announcement is a keyword. -/
theorem primitiveType_announced :
    let text := primitiveWord ++ ' ' :: (typeWord ++ ' ' :: typeWord)
    let first : Token := ⟨.keyword .primitiveKw, primitiveWord, ⟨0, 9⟩, true⟩
    let second : Token := ⟨.keyword .typeKw, typeWord, ⟨10, 14⟩, true⟩
    let third : Token := ⟨.identifier, typeWord, ⟨15, 19⟩, true⟩
    tokenize text = .ok [first, second, third] ∧
      (Announced typeWord [first] ∧ ¬ Lingers [first] ∧ second.isReserved = true) ∧
      (¬ Lingers [first, second] ∧ third.isReserved = false ∧
        ¬ Announced typeWord [first, second]) := by
  intro text first second third
  have read : tokenize text = .ok [first, second, third] := by decide +kernel
  have announced : Announced typeWord [first] := ⟨first, rfl, rfl⟩
  have settled : ¬ Lingers [first] := fun lingers => absurd lingers.marked (by decide)
  have settled' : ¬ Lingers [first, second] := fun lingers => absurd lingers.marked (by decide)
  refine ⟨read, ⟨announced, settled, ?_⟩, settled', rfl, ?_⟩
  · exact ((contextual_keywords (.inl read) rfl).2 rfl settled).mpr announced
  · intro again
    have split : [first, second, third] = [first, second] ++ [third] := rfl
    have reserved := ((contextual_keywords (.inl read) split).2 rfl settled').mpr again
    cases reserved

/-- A string whose marker is `type` leaves the announcement standing: no keyword follows there, and
the `type` behind the string is one. -/
theorem markedType_lingers :
    let text := abstractWord ++ ' ' :: (typeWord ++ '\x22' :: 's' :: '\x22' :: ' ' :: typeWord)
    (∃ ts, tokenize text = .ok ts) ∧
      (tokenizeRecovering text).map (fun t => (t.kind, t.text)) =
        [(.keyword .abstractKw, abstractWord), (.stringStart, typeWord ++ ['\x22']),
          (.stringChunk, ['s']), (.stringEnd, ['\x22']), (.keyword .typeKw, typeWord)] := by
  intro text
  exact ⟨⟨_, tokenize_of_closed (by decide +kernel)⟩, by decide +kernel⟩

end CellBindings
