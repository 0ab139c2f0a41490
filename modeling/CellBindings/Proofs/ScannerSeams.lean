import CellBindings.Proofs.LexemeEnds

/-!
Scanning a text with more text behind it. A step that stays away from the end of the text is the
same with a blank or a line break and more behind it, and so is one that reaches the end, unless it
leaves a string open there or a colon that a blank behind it could turn into that of a conditional
expression.
-/

namespace CellBindings

open Text (Parted Shielded)

/-- Nothing that the scanner has read at the end of a text depends on what follows: it is in no
string, and the last token is no colon. -/
structure Scanner.AtRest (s : Scanner) : Prop where
  frame : ∀ frame ∈ s.frames.head?, ∀ delimiter start, frame.kind ≠ .string delimiter start
  last : ∀ t ∈ s.emitted.head?, ¬ (t.kind = .operator ∧ t.text = [':'])

section Steps

variable {s t : Scanner} {c : Char} {cs rest w : Text}

theorem drop_behind {n : Nat} (h : n ≤ cs.length) (w : Text) :
    (cs ++ w).drop n = cs.drop n ++ w :=
  List.drop_append_of_le_length h

theorem length_le_of_front {lexeme : Text} (h : lexeme <+: c :: cs) :
    lexeme.length - 1 ≤ cs.length := by
  have := h.length_le
  simp only [List.length_cons] at this
  omega

theorem comment_parted (hw : Parted w) (shielded : Shielded rest w)
    (h : s.comment cs = .ok (t, rest)) : s.comment (cs ++ w) = .ok (t, rest ++ w) := by
  unfold Scanner.comment at h
  split at h
  · next inside =>
    split at h
    · cases h
    · next front back cut =>
      cases h
      rw [List.cons_append, Scanner.comment, Text.cutComment_behind cut]
  · next other =>
    cases h
    have line : s.comment (cs ++ w) = .ok (s.skip ('#' :: (cs ++ w).takeWhile (· != '\n')),
        (cs ++ w).dropWhile (· != '\n')) := by
      rw [Scanner.comment]
      intro inside he
      cases cs with
      | nil => obtain ⟨c, v, rfl, rfl | rfl⟩ := hw <;> cases he
      | cons c cs => exact other cs (by rw [(List.cons.inj he).1])
    -- where the comment reaches the end of the text, the line ends with it
    have ends : (cs ++ w).takeWhile (· != '\n') = cs.takeWhile (· != '\n') ∧
        (cs ++ w).dropWhile (· != '\n') = cs.dropWhile (· != '\n') ++ w := by
      refine Text.span_behind fun none => ?_
      rcases shielded with ⟨v, rfl⟩ | ⟨c, mem, _⟩
      · simp
      · rw [none] at mem
        cases mem
    rw [line, ends.1, ends.2]

theorem quote_parted (h : s.quote cs = .ok (t, rest)) (w : Text) :
    s.quote (cs ++ w) = .ok (t, rest ++ w) := by
  unfold Scanner.quote at h ⊢
  split at h
  · next adjoint =>
    cases h
    rw [if_pos adjoint]
  · next opening =>
    rw [if_neg opening]
    split at h
    · cases h
    · next cut =>
      cases h
      rw [Text.cutChar_behind cut]

theorem atSign_parted (hw : Parted w) (s : Scanner) (cs : Text) :
    s.atSign (cs ++ w) = ((s.atSign cs).1, (s.atSign cs).2 ++ w) := by
  cases cs with
  | nil =>
    obtain ⟨c, v, rfl, rfl | rfl⟩ := hw
    · rfl
    · rfl
  | cons c cs =>
    by_cases point : c = '.'
    · subst point
      rfl
    · simp only [List.cons_append, Scanner.atSign, hw.cutName]
      split
      · rfl
      · rfl

theorem number_parted (hw : Parted w) (s : Scanner) (c : Char) (cs : Text) :
    s.number c (cs ++ w) = ((s.number c cs).1, (s.number c cs).2 ++ w) := by
  simp only [Scanner.number, hw.cutNumber]

theorem opaqueString_parted (hw : Parted w) {marker text : Text} (hq : text.head? = some '\x22')
    (h : s.opaqueString marker text = .ok (t, rest)) :
    s.opaqueString marker (text ++ w) = .ok (t, rest ++ w) := by
  have alpha : Char.isAlpha ' ' = false ∧ Char.isAlpha '\n' = false := by decide
  have opening := (ofQuotes_front hq).length_le
  have plain := (Delimiter.ofQuotes text).plain
  unfold Scanner.opaqueString at h ⊢
  rw [hw.ofQuotes]
  generalize (Delimiter.ofQuotes text).text = close at *
  dsimp only at h ⊢
  rw [drop_behind opening]
  split at h
  · cases h
  · next inside back cut =>
    cases h
    have closing : close.length ≤ back.length := by
      have := congrArg List.length (cutOpaque_close cut)
      simp only [List.length_append] at this
      omega
    rw [hw.cutOpaque ⟨plain.1, plain.2.1⟩ cut]
    dsimp only
    rw [drop_behind closing, hw.takeWhile alpha, hw.dropWhile alpha]

theorem word_parted (hw : Parted w) (shielded : Shielded rest w) (s : Scanner) (name : Text) :
    s.word name (rest ++ w) = s.word name rest := by
  have typeWord := @Text.Parted.followedBy _ hw _ ['t', 'y', 'p', 'e'] shielded (by decide)
  have structWord :=
    @Text.Parted.followedBy _ hw _ ['s', 't', 'r', 'u', 'c', 't'] shielded (by decide)
  simp only [Scanner.word, typeWord, structWord]

theorem name_parted (hw : Parted w) (shielded : Shielded rest w)
    (h : s.name c cs = .ok (t, rest)) : s.name c (cs ++ w) = .ok (t, rest ++ w) := by
  have marks : ((Text.cutName cs).2 ++ w).head? == some '\x22' ↔
      (Text.cutName cs).2.head? == some '\x22' := by
    cases (Text.cutName cs).2 with
    | nil => obtain ⟨c, v, rfl, rfl | rfl⟩ := hw <;> simp
    | cons d tail => rfl
  unfold Scanner.name at h ⊢
  simp only [hw.cutName, marks]
  dsimp only at h
  split at h
  · next quoted =>
    have starts : (Text.cutName cs).2.head? = some '\x22' := by simpa using quoted
    rw [if_pos quoted]
    split at h
    · next md =>
      cases h
      rw [if_pos md, hw.ofQuotes, drop_behind (ofQuotes_front starts).length_le]
    · next other =>
      rw [if_neg other]
      exact opaqueString_parted hw starts h
  · next plain =>
    cases h
    rw [if_neg plain, word_parted hw shielded]

def Scanner.operate (s : Scanner) (op rest : Text) : Scanner :=
  if op == ['?'] && s.spaced then (s.setTernary (s.pendingTernary + 1)).emit .operator op
  else if op == [':'] && s.spaced && 0 < s.pendingTernary &&
      rest.head?.any (fun c => c == ' ' || c == '\t' || c == '\n') then
    (s.setTernary (s.pendingTernary - 1)).emit .ternaryColon op
  else s.emit .operator op

theorem operator_eq {op : Text}
    (found : (Text.dottedOperator? (c :: cs)).or (Text.operator? (c :: cs)) = some op) :
    s.operator c cs = (s.operate op (cs.drop (op.length - 1)), cs.drop (op.length - 1)) := by
  simp only [Scanner.operator, found, Scanner.operate]
  split
  · rfl
  · split
    · rfl
    · rfl

theorem operator_found (hw : Parted w) (c : Char) (cs : Text) :
    (Text.dottedOperator? (c :: (cs ++ w))).or (Text.operator? (c :: (cs ++ w))) =
      (Text.dottedOperator? (c :: cs)).or (Text.operator? (c :: cs)) := by
  have plain : Text.operator? (c :: (cs ++ w)) = Text.operator? (c :: cs) := hw.operator? (c :: cs)
  rw [hw.dottedOperator?, plain]

theorem operator_front {op : Text}
    (found : (Text.dottedOperator? (c :: cs)).or (Text.operator? (c :: cs)) = some op) :
    op ≠ [] ∧ op <+: c :: cs := by
  rcases Option.or_eq_some_iff.mp found with h | ⟨_, h⟩
  · exact dottedOperator?_front h
  · exact operator?_front h

/-- Only a colon looks at what is behind it, and only if nothing is. -/
theorem operate_parted {op : Text} (rests : rest = [] → (s.operate op rest).AtRest) (w : Text) :
    s.operate op (rest ++ w) = s.operate op rest := by
  cases rest with
  | cons d rest => rfl
  | nil =>
    have last := (rests rfl).last
    unfold Scanner.operate at last ⊢
    split
    · rfl
    · next other =>
      have colon : op ≠ [':'] := by
        rintro rfl
        simp [Scanner.emit] at last
      simp [colon]

theorem operator_parted (hw : Parted w)
    (rests : (s.operator c cs).2 = [] → (s.operator c cs).1.AtRest) :
    s.operator c (cs ++ w) = ((s.operator c cs).1, (s.operator c cs).2 ++ w) := by
  have same := operator_found hw c cs
  cases found : (Text.dottedOperator? (c :: cs)).or (Text.operator? (c :: cs)) with
  | none => simp only [Scanner.operator, same, found]
  | some op =>
    have front := (operator_front found).2
    rw [operator_eq found] at rests ⊢
    rw [operator_eq (same.trans found), drop_behind (length_le_of_front front),
      operate_parted rests]

theorem startsFraction_parted (hw : Parted w) (s : Scanner) (cs : Text) :
    s.startsFraction (cs ++ w) = s.startsFraction cs := by
  simp only [Scanner.startsFraction, hw.head (p := Char.isDigit) (by decide)]

theorem codeStep_parted (hw : Parted w) (shielded : Shielded rest w)
    (rests : rest = [] → t.AtRest) (h : s.codeStep c cs = .ok (t, rest)) :
    s.codeStep c (cs ++ w) = .ok (t, rest ++ w) := by
  unfold Scanner.codeStep at h
  split at h
  case h_1 | h_3 | h_4 | h_5 | h_6 | h_7 | h_8 | h_9 | h_10 =>
    cases h
    rfl
  case h_2 => exact comment_parted hw shielded h
  case h_11 =>
    cases h
    have opening := length_le_of_front (@ofQuotes_front ('\x22' :: cs) rfl)
    have same : Delimiter.ofQuotes ('\x22' :: (cs ++ w)) = Delimiter.ofQuotes ('\x22' :: cs) :=
      hw.ofQuotes ('\x22' :: cs)
    simp only [Scanner.codeStep, same, drop_behind opening]
  case h_12 =>
    cases h
    have opening := length_le_of_front (@ofBackticks_front ('\x60' :: cs) rfl)
    have same : Delimiter.ofBackticks ('\x60' :: (cs ++ w)) =
        Delimiter.ofBackticks ('\x60' :: cs) := hw.ofBackticks ('\x60' :: cs)
    simp only [Scanner.codeStep, same, drop_behind opening]
  case h_13 => exact quote_parted h w
  case h_14 =>
    have same := atSign_parted hw s cs
    rw [Except.ok.inj h] at same
    simp only [Scanner.codeStep, same]
  case h_15 =>
    rw [Scanner.codeStep]
    · rw [startsFraction_parted hw]
      split at h
      · next blank =>
        cases h
        rw [if_pos blank]
      · next solid =>
        rw [if_neg solid]
        split at h
        · next digit =>
          have same := number_parted hw s c cs
          rw [Except.ok.inj h] at same
          rw [if_pos digit, same]
        · next other =>
          rw [if_neg other]
          split at h
          · next first =>
            rw [if_pos first]
            exact name_parted hw shielded h
          · next sign =>
            have same := @operator_parted s c cs w hw
            rw [Except.ok.inj h] at same
            rw [if_neg sign, same rests]
    all_goals assumption

section Strings

variable {delimiter : Delimiter}

theorem stringStep_close (front : delimiter.text.isPrefixOf (c :: cs) = true) :
    s.stringStep delimiter c cs =
      ({ s.emit .stringEnd delimiter.text with frames := s.frames.tail },
        cs.drop (delimiter.text.length - 1)) :=
  if_pos front

theorem stringStep_interpolation (s : Scanner) (delimiter : Delimiter) (cs : Text) :
    s.stringStep delimiter '$' ('(' :: cs) =
      (((s.emit .operator ['$']).emit .punctuation ['(']).enter .interpolation, cs) := by
  have inside := Bool.eq_false_iff.mp (delimiter.plain.2.2.2 ('(' :: cs))
  exact (if_neg inside).trans (if_pos rfl)

/-- Behind a dollar and no bracket, a name is read or the chunk goes on. -/
theorem stringStep_variable {d : Char} (bracket : d ≠ '(') :
    s.stringStep delimiter '$' (d :: cs) =
      if isNameStart d then
        ((s.emit .operator ['$']).emit .identifier (d :: (Text.cutName cs).1),
          (Text.cutName cs).2)
      else
        (s.emit .stringChunk ('$' :: (Text.cutChunk delimiter.text (d :: cs)).1),
          (Text.cutChunk delimiter.text (d :: cs)).2) := by
  simp only [Scanner.stringStep, delimiter.plain.2.2.2, Bool.false_eq_true, if_false, if_true]

theorem stringStep_name {d : Char} (start : isNameStart d = true) (bracket : d ≠ '(') :
    s.stringStep delimiter '$' (d :: cs) =
      ((s.emit .operator ['$']).emit .identifier (d :: (Text.cutName cs).1),
        (Text.cutName cs).2) := by
  rw [stringStep_variable bracket, if_pos start]

theorem stringStep_dollar {d : Char} (start : isNameStart d = false) (bracket : d ≠ '(') :
    s.stringStep delimiter '$' (d :: cs) =
      (s.emit .stringChunk ('$' :: (Text.cutChunk delimiter.text (d :: cs)).1),
        (Text.cutChunk delimiter.text (d :: cs)).2) := by
  rw [stringStep_variable bracket, if_neg (Bool.eq_false_iff.mp start)]

theorem stringStep_escape (s : Scanner) (delimiter : Delimiter) (d : Char) (cs : Text) :
    s.stringStep delimiter '\\' (d :: cs) =
      (s.emit .stringChunk ('\\' :: d :: (Text.cutChunk delimiter.text cs).1),
        (Text.cutChunk delimiter.text cs).2) := by
  have inside := Bool.eq_false_iff.mp (delimiter.plain.2.2.1 (d :: cs))
  have other : ('\\' : Char) ≠ '$' := by decide
  exact (if_neg inside).trans ((if_neg other).trans (if_pos rfl))

theorem stringStep_end (mark : c = '$' ∨ c = '\\') :
    s.stringStep delimiter c [] = (s.emit .stringChunk [c], []) := by
  have plain := delimiter.plain
  rcases mark with rfl | rfl
  · have inside := Bool.eq_false_iff.mp (plain.2.2.2 [])
    exact (if_neg inside).trans (if_pos rfl)
  · have inside := Bool.eq_false_iff.mp (plain.2.2.1 [])
    have other : ('\\' : Char) ≠ '$' := by decide
    exact (if_neg inside).trans ((if_neg other).trans (if_pos rfl))

theorem stringStep_chunk (front : delimiter.text.isPrefixOf (c :: cs) = false) (dollar : c ≠ '$')
    (escape : c ≠ '\\') :
    s.stringStep delimiter c cs =
      (s.emit .stringChunk (c :: (Text.cutChunk delimiter.text cs).1),
        (Text.cutChunk delimiter.text cs).2) :=
  (if_neg (Bool.eq_false_iff.mp front)).trans ((if_neg dollar).trans (if_neg escape))

theorem stringStep_parted (hw : Parted w) {start pending : Nat} {frames : List Frame}
    (inside : s.frames = ⟨.string delimiter start, pending⟩ :: frames)
    (rests : (s.stringStep delimiter c cs).2 = [] → (s.stringStep delimiter c cs).1.AtRest) :
    s.stringStep delimiter c (cs ++ w) =
      ((s.stringStep delimiter c cs).1, (s.stringStep delimiter c cs).2 ++ w) := by
  have plain := delimiter.plain
  have closing : delimiter.text.isPrefixOf (c :: (cs ++ w)) = delimiter.text.isPrefixOf (c :: cs) :=
    hw.isPrefixOf plain.1 plain.2.1 (c :: cs)
  -- a chunk at the end of the text would leave the string open there
  have unfinished {kind : Token.Kind} {lexeme : Text} : ¬ (s.emit kind lexeme).AtRest :=
    fun atRest => atRest.frame ⟨.string delimiter start, pending⟩ (by simp [Scanner.emit, inside])
      delimiter start rfl
  by_cases front : delimiter.text.isPrefixOf (c :: cs) = true
  · have starts := length_le_of_front (List.isPrefixOf_iff_prefix.mp front)
    rw [stringStep_close front, stringStep_close (closing.trans front), drop_behind starts]
  by_cases dollar : c = '$'
  · subst dollar
    rcases cs with _ | ⟨d, cs⟩
    · rw [stringStep_end (.inl rfl)] at rests
      exact absurd (rests rfl) unfinished
    rw [List.cons_append]
    by_cases bracket : d = '('
    · subst bracket
      rw [stringStep_interpolation, stringStep_interpolation]
    by_cases first : isNameStart d = true
    · rw [stringStep_name first bracket, stringStep_name first bracket, hw.cutName]
    · simp only [Bool.not_eq_true] at first
      rw [stringStep_dollar first bracket] at rests ⊢
      rw [stringStep_dollar first bracket, ← List.cons_append,
        hw.cutChunk delimiter fun none => unfinished (rests none)]
  by_cases escape : c = '\\'
  · subst escape
    rcases cs with _ | ⟨d, cs⟩
    · rw [stringStep_end (.inr rfl)] at rests
      exact absurd (rests rfl) unfinished
    rw [stringStep_escape] at rests ⊢
    rw [List.cons_append, stringStep_escape,
      hw.cutChunk delimiter fun none => unfinished (rests none)]
  · simp only [Bool.not_eq_true] at front
    rw [stringStep_chunk front dollar escape] at rests ⊢
    rw [stringStep_chunk (closing.trans front) dollar escape,
      hw.cutChunk delimiter fun none => unfinished (rests none)]

end Strings

/-- A step looks no further than the blank or the line break behind what it has read. -/
theorem step_parted (hw : Parted w) (shielded : Shielded rest w) (rests : rest = [] → t.AtRest)
    (h : s.step c cs = .ok (t, rest)) : s.step c (cs ++ w) = .ok (t, rest ++ w) := by
  unfold Scanner.step at h ⊢
  split at h
  · next delimiter start pending frames inside =>
    have same := Except.ok.inj h
    have step := @stringStep_parted s c cs w delimiter hw start pending frames inside
    rw [same] at step
    rw [step rests]
  · exact codeStep_parted hw shielded rests h

end Steps

section Runs

variable {n : Nat} {s t u : Scanner} {c : Char} {cs rest text after w : Text}

theorem run_of_step (h : s.step c cs = .ok (t, rest)) : s.run (c :: cs) = t.run rest := by
  rw [Scanner.run]
  split
  · next failed =>
    rw [h] at failed
    cases failed
  · next found =>
    rw [h] at found
    cases found
    rfl

theorem run_of_error {e : Unterminated} (h : s.step c cs = .error e) :
    s.run (c :: cs) = (s, some e) := by
  rw [Scanner.run]
  split
  · next failed =>
    rw [h] at failed
    cases failed
    rfl
  · next found =>
    rw [h] at found
    cases found

/-- Outside all strings, a step reads code. -/
theorem step_of_closed (closed : s.openAtEnd = none) (c : Char) (cs : Text) :
    s.step c cs = s.codeStep c cs := by
  unfold Scanner.step
  split
  · next inside =>
    simp [Scanner.openAtEnd, inside] at closed
  · rfl

theorem run_lineBreak (closed : s.openAtEnd = none) (text : Text) :
    s.run ('\n' :: text) = s.lineBreak.run text :=
  run_of_step (step_of_closed closed '\n' text)

theorem run_blank (closed : s.openAtEnd = none) (text : Text) :
    s.run (' ' :: text) = (s.skip [' ']).run text :=
  run_of_step (step_of_closed closed ' ' text)

theorem Moves.suffix (h : Moves s rest t after) : after <:+ rest := by
  induction h with
  | done => exact List.suffix_refl _
  | emit _ _ _ _ ih => exact ih.trans (List.suffix_append _ _)
  | breakLine _ ih => exact ih.trans (List.suffix_cons _ _)
  | skip _ _ ih => exact ih.trans (List.suffix_append _ _)
  | steer _ _ ih => exact ih

/-- Turns that are taken in a text are taken in a longer one too. -/
theorem Turns.run_behind (turns : Turns n s text t after) (hw : Parted w)
    (shielded : Shielded after w) (rests : after = [] → t.AtRest) :
    s.run (text ++ w) = t.run (after ++ w) := by
  induction turns with
  | none => rfl
  | @next n s c cs u rest t after step turns ih =>
    have here : Shielded rest w := by
      rcases shielded with line | ⟨d, mem, solid⟩
      · exact .inl line
      · exact .inr ⟨d, turns.moves.suffix.mem mem, solid⟩
    have settled : rest = [] → u.AtRest := by
      rintro rfl
      cases turns
      exact rests rfl
    rw [List.cons_append, run_of_step (step_parted hw here settled step)]
    exact ih shielded rests

/-- Outside all frames a line break forgets the question marks so far, and is a token if there is a
line for it to end. -/
theorem lineBreak_of_top (top : s.frames = []) :
    s.lineBreak =
      if s.emitted.head?.any fun t => t.kind != .newline && !t.continuesLine then
        { Scanner.emit { s with rootTernary := 0 } .newline ['\n'] with spaced := true }
      else Scanner.skip { s with rootTernary := 0 } ['\n'] := by
  have level : s.atStatementLevel = true := by simp [Scanner.atStatementLevel, top]
  have forgets : s.setTernary 0 = { s with rootTernary := 0 } := by simp [Scanner.setTernary, top]
  rw [Scanner.lineBreak, if_pos level, forgets]

/-- A text that ends outside all frames, and whose last line does not go on, is read as before with
a line break and more behind it. -/
theorem Turns.run_break (turns : Turns n .initial text t []) (top : t.frames = [])
    (ends : ∀ u ∈ t.emitted.head?, u.continuesLine = false) (more : Text) :
    Scanner.initial.run (text ++ '\n' :: more) = t.lineBreak.run more := by
  have closed : t.openAtEnd = .none := by simp [Scanner.openAtEnd, top]
  have rests : t.AtRest := by
    refine ⟨by simp [top], fun u last colon => ?_⟩
    have stays := ends u last
    simp [Token.continuesLine, colon.1, colon.2] at stays
  rw [turns.run_behind (Text.parted_newline more) (.inl ⟨more, rfl⟩) fun _ => rests,
    List.nil_append, run_lineBreak closed]

/-- The last of some turns. -/
theorem Turns.last (turns : Turns n s text t after) (moved : n ≠ 0) :
    ∃ m u c cs, Turns m s text u (c :: cs) ∧ u.step c cs = .ok (t, after) := by
  induction turns with
  | none => exact absurd rfl moved
  | @next n s c cs u rest t after step turns ih =>
    cases n with
    | zero =>
      cases turns
      exact ⟨0, s, c, cs, .none, step⟩
    | succ n =>
      obtain ⟨m, v, d, ds, front, final⟩ := ih (Nat.succ_ne_zero n)
      exact ⟨m + 1, v, d, ds, .next step front, final⟩

/-- A text without failure is read to its end, and nothing is open there. -/
theorem tokenize_turns {ts : List Token} (ok : tokenize text = .ok ts) :
    ∃ n s, Turns n .initial text s [] ∧ Scanner.initial.run text = (s, none) ∧
      s.openAtEnd = none ∧ s.tokens = ts := by
  obtain ⟨n, after, turns, halts⟩ := run_turns .initial text
  unfold tokenize at ok
  generalize Scanner.initial.run text = result at turns halts ok
  obtain ⟨s, failure⟩ := result
  cases failure with
  | some e => cases ok
  | none =>
    rcases halts with ⟨rfl, closed⟩ | ⟨_, _, _, _, _, failed⟩
    · exact ⟨n, s, turns, rfl, closed.symm, Except.ok.inj ok⟩
    · cases failed

end Runs

end CellBindings
