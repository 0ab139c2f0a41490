import CellBindings.Token.Scanner

/-!
What the scanner can do. Every step is a sequence of moves: it emits the characters in front of it
as a token, passes a line break, skips a gap, or changes its frames and flags without reading. A run
is a sequence of steps, at most one for each character. All that holds of the tokens of a text
follows from what the moves keep.
-/

namespace CellBindings

inductive Gap : Text → Text → Prop where
  | blank {c rest} : isBlank c = true → Gap [c] rest
  | line {cs rest} : cs.head? ≠ some '=' → '\n' ∉ cs → (∀ c ∈ rest.head?, c = '\n') →
      Gap ('#' :: cs) rest
  | block {front rest} : Text.cutComment 0 (front ++ rest) = some (front, rest) →
      Gap ('#' :: '=' :: front) rest

/-- Frames and flags change, but nothing is read. A string frame that is new belongs to the token
just emitted. -/
structure Steers (s t : Scanner) : Prop where
  offset : t.offset = s.offset
  emitted : t.emitted = s.emitted
  spaced : t.spaced = s.spaced
  strings : ∀ frame ∈ t.frames, ∀ delimiter start, frame.kind = .string delimiter start →
    (∃ old ∈ s.frames, old.kind = frame.kind) ∨
      ∃ token ∈ s.emitted.head?, token.kind = .stringStart ∧ token.span.start = start

def Token.Kind.IsPlain (kind : Token.Kind) : Prop := kind ≠ .error ∧ kind ≠ .newline

instance (kind : Token.Kind) : Decidable kind.IsPlain := inferInstanceAs (Decidable (_ ∧ _))

/-- The moves from one state, with the text before it, to another. A line break counts as a gap
before the next token, and is a token itself. -/
inductive Moves : Scanner → Text → Scanner → Text → Prop where
  | done {s rest} : Moves s rest s rest
  | emit {s lexeme rest t after} (kind) : lexeme ≠ [] → kind.IsPlain →
      Moves (s.emit kind lexeme) rest t after → Moves s (lexeme ++ rest) t after
  | breakLine {s rest t after} :
      Moves { s.emit .newline ['\n'] with spaced := true } rest t after →
      Moves s ('\n' :: rest) t after
  | skip {s gap rest t after} : Gap gap rest →
      Moves (s.skip gap) rest t after → Moves s (gap ++ rest) t after
  | steer {s u rest t after} : Steers s u → Moves u rest t after → Moves s rest t after

theorem Moves.trans {s t u : Scanner} {a b c : Text} (h : Moves s a t b) (k : Moves t b u c) :
    Moves s a u c := by
  induction h with
  | done => exact k
  | emit kind hn hk _ ih => exact .emit kind hn hk (ih k)
  | breakLine _ ih => exact .breakLine (ih k)
  | skip hg _ ih => exact .skip hg (ih k)
  | steer hs _ ih => exact .steer hs (ih k)

theorem Moves.emitted {s : Scanner} {kind : Token.Kind} {lexeme rest : Text} (hn : lexeme ≠ [])
    (hk : kind.IsPlain) : Moves s (lexeme ++ rest) (s.emit kind lexeme) rest :=
  .emit kind hn hk .done

theorem Moves.skipped {s : Scanner} {gap rest : Text} (hg : Gap gap rest) :
    Moves s (gap ++ rest) (s.skip gap) rest :=
  .skip hg .done

theorem Moves.steered {s t : Scanner} {rest : Text} (h : Steers s t) : Moves s rest t rest :=
  .steer h .done

namespace Steers

variable {s : Scanner}

/-- A change that keeps the kinds of the frames. -/
theorem of_kinds {t : Scanner} (offset : t.offset = s.offset) (emitted : t.emitted = s.emitted)
    (spaced : t.spaced = s.spaced)
    (kinds : ∀ frame ∈ t.frames, ∃ old ∈ s.frames, old.kind = frame.kind) : Steers s t :=
  ⟨offset, emitted, spaced, fun frame hf _ _ _ => .inl (kinds frame hf)⟩

theorem setTernary (s : Scanner) (count : Nat) : Steers s (s.setTernary count) := by
  unfold Scanner.setTernary
  split
  · exact of_kinds rfl rfl rfl fun frame hf => ⟨frame, hf, rfl⟩
  · next frame rest hs =>
    refine of_kinds rfl rfl rfl fun other ho => ?_
    rw [hs]
    rcases List.mem_cons.mp ho with rfl | ho
    · exact ⟨frame, by simp, rfl⟩
    · exact ⟨other, by simp [ho], rfl⟩

theorem enter {kind : FrameKind} (h : ∀ delimiter start, kind ≠ .string delimiter start) :
    Steers s (s.enter kind) := by
  refine ⟨rfl, rfl, rfl, fun frame hf delimiter start hk => ?_⟩
  rcases List.mem_cons.mp hf with rfl | hf
  · exact absurd hk (h delimiter start)
  · exact .inl ⟨frame, hf, rfl⟩

theorem typeNext (s : Scanner) (flag : Bool) : Steers s { s with typeNext := flag } :=
  of_kinds rfl rfl rfl fun frame hf => ⟨frame, hf, rfl⟩

/-- Frames may be closed. -/
theorem close {frames : List Frame} (h : ∀ frame ∈ frames, frame ∈ s.frames) :
    Steers s { s with frames } :=
  of_kinds rfl rfl rfl fun frame hf => ⟨frame, h frame hf, rfl⟩

end Steers

theorem closeBracket_subset {kind : FrameKind} {frames rest : List Frame}
    (h : Scanner.closeBracket kind frames = some rest) : ∀ frame ∈ rest, frame ∈ frames := by
  induction frames with
  | nil => cases h
  | cons first frames ih =>
    intro frame hf
    simp only [Scanner.closeBracket] at h
    split at h
    · cases h
      exact List.mem_cons_of_mem _ hf
    · split at h
      · cases h
      · cases h
      · exact List.mem_cons_of_mem _ (ih h frame hf)

theorem closeBlock_subset {frames rest : List Frame} (h : Scanner.closeBlock frames = some rest) :
    ∀ frame ∈ rest, frame ∈ frames := by
  induction frames with
  | nil => cases h
  | cons first frames ih =>
    intro frame hf
    simp only [Scanner.closeBlock] at h
    split at h
    · cases h
      exact List.mem_cons_of_mem _ hf
    · exact List.mem_cons_of_mem _ (ih h frame hf)
    · exact List.mem_cons_of_mem _ (ih h frame hf)
    · cases h

theorem getD_subset {frames : List Frame} {closed : Option (List Frame)}
    (h : ∀ rest, closed = some rest → ∀ frame ∈ rest, frame ∈ frames) :
    ∀ frame ∈ closed.getD frames, frame ∈ frames := by
  cases closed with
  | none => exact fun _ hf => hf
  | some rest => exact h rest rfl

theorem Steers.leave (s : Scanner) (kind : FrameKind) : Steers s (s.leave kind) :=
  .close (getD_subset fun _ h => closeBracket_subset h)

section Steps

variable {s t : Scanner} {c : Char} {cs rest : Text}

/-- A token of given characters, which the text goes on with. -/
theorem Moves.emits {kind : Token.Kind} {lexeme text : Text} (ht : text = lexeme ++ rest)
    (hn : lexeme ≠ []) (hk : kind.IsPlain) : Moves s text (s.emit kind lexeme) rest := by
  subst ht
  exact .emitted hn hk

theorem lineBreak_moves (s : Scanner) (cs : Text) : Moves s ('\n' :: cs) s.lineBreak cs := by
  have blank : Gap ['\n'] cs := .blank (by decide)
  unfold Scanner.lineBreak
  split
  · refine .steer (.setTernary s 0) ?_
    dsimp only
    split
    · exact .breakLine .done
    · exact .skipped blank
  · exact .skipped blank

theorem comment_moves (h : s.comment cs = .ok (t, rest)) : Moves s ('#' :: cs) t rest := by
  unfold Scanner.comment at h
  split at h
  · next inside =>
    split at h
    · cases h
    · next front back cut =>
      cases h
      have same := Text.cutComment_append cut
      subst same
      exact .skipped (.block cut)
  · next other =>
    cases h
    have gap : Gap ('#' :: cs.takeWhile (· != '\n')) (cs.dropWhile (· != '\n')) := by
      refine .line ?_ ?_ ?_
      · cases cs with
        | nil => simp
        | cons c cs =>
          intro hh
          have hc : c = '=' := by
            simp only [List.takeWhile_cons] at hh
            split at hh
            · simpa using hh
            · cases hh
          exact other cs (by rw [hc])
      · intro hm
        have all : (cs.takeWhile (· != '\n')).all (· != '\n') = true := List.all_takeWhile
        simpa using List.all_eq_true.mp all _ hm
      · intro c hc
        have stop := List.head?_dropWhile_not (· != '\n') cs
        rw [Option.mem_def.mp hc] at stop
        simpa using stop
    have moved : Moves s _ _ _ := .skipped gap
    simpa using moved

theorem quote_moves (h : s.quote cs = .ok (t, rest)) : Moves s ('\x27' :: cs) t rest := by
  unfold Scanner.quote at h
  split at h
  · cases h
    exact .emits rfl (by simp) (by decide)
  · split at h
    · cases h
    · next front back cut =>
      cases h
      have same := Text.cutChar_append cut
      exact .emits (by simp [same]) (by simp) (by decide)

theorem atSign_moves (s : Scanner) (cs : Text) :
    Moves s ('@' :: cs) (s.atSign cs).1 (s.atSign cs).2 := by
  unfold Scanner.atSign
  split
  · exact .emits rfl (by simp) (by decide)
  · next c tail _ =>
    split
    · have same := Text.cutName_append tail
      exact .emits (by simp [same]) (by simp) (by decide)
    · exact .emits rfl (by simp) (by decide)
  · exact .emits rfl (by simp) (by decide)

theorem number_moves (s : Scanner) (c : Char) (cs : Text) :
    Moves s (c :: cs) (s.number c cs).1 (s.number c cs).2 := by
  have same := Text.cutNumber_append c cs
  rcases cut : Text.cutNumber c cs with ⟨float, digits, rest⟩
  simp only [cut] at same
  simp only [Scanner.number, cut]
  refine .emits (by simp [same]) (by simp) ?_
  cases float <;> decide

theorem block_ne_string (delimiter : Delimiter) (start : Nat) :
    FrameKind.block ≠ .string delimiter start := by simp

theorem keyword_plain (word : Keyword) : (Token.Kind.keyword word).IsPlain := by
  simp [Token.Kind.IsPlain]

theorem word_moves (s : Scanner) {name : Text} (hn : name ≠ []) (rest : Text) :
    Moves s (name ++ rest) (s.word name rest) rest := by
  unfold Scanner.word
  refine .steer (.typeNext s false) ?_
  dsimp only
  -- each branch emits the word; those that open a block enter its frame
  have opens {u : Scanner} (flag : Bool) :
      Moves u rest { u.enter .block with typeNext := flag } rest :=
    .steer (.enter block_ne_string) (.steered (.typeNext _ flag))
  split
  · exact .emitted hn (by decide)
  split
  · exact .emit _ hn (by decide) (opens true)
  split
  · exact .emit _ hn (by decide) (opens true)
  split
  · exact .emitted hn (by decide)
  split
  · exact .emitted hn (by decide)
  · split
    · exact .emitted hn (by decide)
    · exact .emit _ hn (by decide) (.steered (.enter block_ne_string))
  · split
    · exact .emitted hn (by decide)
    · exact .emit _ hn (by decide) (.steered (.close (getD_subset fun _ h => closeBlock_subset h)))
  · split
    · exact .emit _ hn (keyword_plain _) (.steered (.enter block_ne_string))
    · exact .emitted hn (keyword_plain _)

theorem Delimiter.text_ne_nil (delimiter : Delimiter) : delimiter.text ≠ [] := by
  cases delimiter <;> simp [Delimiter.text]

/-- A delimiter of three characters, or of the one that the text starts with. -/
theorem delimiter_front {text triple single : Text} (h : single <+: text) :
    (if triple.isPrefixOf text = true then triple else single) <+: text := by
  split
  · next front => exact List.isPrefixOf_iff_prefix.mp front
  · exact h

theorem head_front {text : Text} (h : text.head? = some c) : [c] <+: text := by
  cases text with
  | nil => cases h
  | cons d cs =>
    obtain rfl : d = c := by simpa using h
    exact List.cons_prefix_cons.mpr ⟨rfl, List.nil_prefix⟩

theorem ofQuotes_front {text : Text} (h : text.head? = some '\x22') :
    (Delimiter.ofQuotes text).text <+: text := by
  rw [Delimiter.ofQuotes, apply_ite Delimiter.text]
  exact delimiter_front (head_front h)

theorem ofBackticks_front {text : Text} (h : text.head? = some '\x60') :
    (Delimiter.ofBackticks text).text <+: text := by
  rw [Delimiter.ofBackticks, apply_ite Delimiter.text]
  exact delimiter_front (head_front h)

theorem openString_moves (s : Scanner) (marker : Text) (delimiter : Delimiter) (rest : Text) :
    Moves s ((marker ++ delimiter.text) ++ rest) (s.openString marker delimiter) rest := by
  refine .emit .stringStart (by simp [delimiter.text_ne_nil]) (by decide) (.steered ?_)
  refine ⟨rfl, rfl, rfl, fun frame hf other start hk => ?_⟩
  rcases List.mem_cons.mp hf with rfl | hf
  · simp only [FrameKind.string.injEq] at hk
    exact .inr ⟨_, rfl, rfl, hk.2⟩
  · exact .inl ⟨frame, hf, rfl⟩

/-- An opaque string is cut right before its closing delimiter. -/
theorem cutOpaque_close {close text front back : Text}
    (h : Text.cutOpaque close text = some (front, back)) :
    back = close ++ back.drop close.length := by
  induction text using Text.cutOpaque.induct close generalizing front back with
  | case1 c cs ih =>
    simp only [Text.cutOpaque, Option.map_eq_some_iff, Prod.exists, Prod.mk.injEq] at h
    obtain ⟨f, b, hs, rfl, rfl⟩ := h
    exact ih hs
  | case2 c cs other stop =>
    rw [Text.cutOpaque] at h
    · simp [stop] at h
    · assumption
  | case3 c cs other go found =>
    rw [Text.cutOpaque] at h
    · simp only [go, found] at h
      simp only [Bool.false_eq_true, if_false, if_true, Option.some.injEq, Prod.mk.injEq] at h
      obtain ⟨tail, ht⟩ := List.isPrefixOf_iff_prefix.mp found
      rw [← h.2, ← ht]
      simp
    · assumption
  | case4 c cs other go found ih =>
    rw [Text.cutOpaque] at h
    · simp only [go, found] at h
      simp only [Bool.false_eq_true, if_false, Option.map_eq_some_iff, Prod.exists,
        Prod.mk.injEq] at h
      obtain ⟨f, b, hs, rfl, rfl⟩ := h
      exact ih hs
    · assumption
  | case5 => simp [Text.cutOpaque] at h

theorem opaqueString_moves {marker text : Text} (hq : text.head? = some '\x22')
    (h : s.opaqueString marker text = .ok (t, rest)) : Moves s (marker ++ text) t rest := by
  unfold Scanner.opaqueString at h
  dsimp only at h
  split at h
  · cases h
  · next inside back cut =>
    cases h
    have opening := List.prefix_iff_eq_append.mp (ofQuotes_front hq)
    have body := Text.cutOpaque_append cut
    have closing := cutOpaque_close cut
    have hc := (Delimiter.ofQuotes text).text_ne_nil
    generalize (Delimiter.ofQuotes text).text = close at *
    have flags : (back.drop close.length).takeWhile Char.isAlpha ++
        (back.drop close.length).dropWhile Char.isAlpha = back.drop close.length :=
      List.takeWhile_append_dropWhile
    have whole : marker ++ text = (marker ++ close) ++ (inside ++ ((close ++
        (back.drop close.length).takeWhile Char.isAlpha) ++
        (back.drop close.length).dropWhile Char.isAlpha)) := by
      rw [List.append_assoc close, flags, ← closing, body, List.append_assoc, opening]
    rw [whole]
    refine .emit .stringStart (by simp [hc]) (by decide) ?_
    have ends (u : Scanner) (flags rest : Text) :
        Moves u ((close ++ flags) ++ rest) (u.emit .stringEnd (close ++ flags)) rest :=
      .emitted (by simp [hc]) (by decide)
    cases inside with
    | nil => exact ends _ _ _
    | cons c cs => exact .emit .stringChunk (by simp) (by decide) (ends _ _ _)

theorem name_moves (h : s.name c cs = .ok (t, rest)) : Moves s (c :: cs) t rest := by
  have same := Text.cutName_append cs
  unfold Scanner.name at h
  dsimp only at h
  have whole : c :: cs = (c :: (Text.cutName cs).1) ++ (Text.cutName cs).2 := by simp [same]
  rw [whole]
  split at h
  · next quoted =>
    simp only [beq_iff_eq] at quoted
    split at h
    · cases h
      have opening := List.prefix_iff_eq_append.mp (ofQuotes_front quoted)
      have opened := openString_moves s (c :: (Text.cutName cs).1)
        (Delimiter.ofQuotes (Text.cutName cs).2)
        ((Text.cutName cs).2.drop (Delimiter.ofQuotes (Text.cutName cs).2).text.length)
      rwa [List.append_assoc, opening] at opened
    · exact opaqueString_moves quoted h
  · cases h
    exact word_moves s (by simp) _

theorem longest?_mem {spellings : List Text} {text op : Text}
    (h : Text.longest? spellings text = some op) : op ∈ spellings ∧ op <+: text := by
  have chosen : ∀ (ops : List Text) (best : Option Text),
      ops.foldl (fun best op => if (best.getD []).length < op.length then some op else best) best =
        some op → best = some op ∨ op ∈ ops := by
    intro ops
    induction ops with
    | nil => exact fun best h => .inl h
    | cons first ops ih =>
      intro best h
      rcases ih _ h with h | h
      · dsimp only at h
        split at h
        · cases h
          exact .inr (by simp)
        · exact .inl h
      · exact .inr (by simp [h])
  rcases chosen _ _ h with h | h
  · cases h
  · obtain ⟨member, front⟩ := List.mem_filter.mp h
    exact ⟨member, List.isPrefixOf_iff_prefix.mp front⟩

theorem operator?_front {text op : Text} (h : Text.operator? text = some op) :
    op ≠ [] ∧ op <+: text := by
  obtain ⟨member, front⟩ := longest?_mem h
  refine ⟨?_, front⟩
  rintro rfl
  revert member
  decide

theorem dottedOperator?_front {text op : Text} (h : Text.dottedOperator? text = some op) :
    op ≠ [] ∧ op <+: text := by
  unfold Text.dottedOperator? at h
  split at h
  · split at h
    · cases h
    · obtain ⟨plain, hp, h⟩ := Option.bind_eq_some_iff.mp h
      split at h
      · cases h
      · cases h
        exact ⟨by simp, List.cons_prefix_cons.mpr ⟨rfl, (operator?_front hp).2⟩⟩
  · cases h

/-- A lexeme that the text goes on with, when its first character is known. -/
theorem Moves.emits_front {kind : Token.Kind} {lexeme : Text} (front : lexeme <+: c :: cs)
    (hn : lexeme ≠ []) (hk : kind.IsPlain) :
    Moves s (c :: cs) (s.emit kind lexeme) (cs.drop (lexeme.length - 1)) := by
  obtain ⟨back, hb⟩ := front
  cases lexeme with
  | nil => exact absurd rfl hn
  | cons d lexeme =>
    obtain ⟨rfl, rfl⟩ := List.cons.inj hb
    exact .emits (by simp) hn hk

theorem operator_moves (s : Scanner) (c : Char) (cs : Text) :
    Moves s (c :: cs) (s.operator c cs).1 (s.operator c cs).2 := by
  unfold Scanner.operator
  split
  · exact .emits rfl (by simp) (by decide)
  · next op found =>
    have front : op ≠ [] ∧ op <+: c :: cs := by
      rcases Option.or_eq_some_iff.mp found with h | ⟨_, h⟩
      · exact dottedOperator?_front h
      · exact operator?_front h
    obtain ⟨hn, starts⟩ := front
    dsimp only
    split
    · exact .steer (.setTernary s _) (.emits_front starts hn (by decide))
    · split
      · exact .steer (.setTernary s _) (.emits_front starts hn (by decide))
      · exact .emits_front starts hn (by decide)

/-- A bracket that opens a frame. -/
theorem opening_moves (s : Scanner) (c : Char) {kind : FrameKind}
    (hk : ∀ delimiter start, kind ≠ .string delimiter start) (cs : Text) :
    Moves s (c :: cs) ((s.emit .punctuation [c]).enter kind) cs :=
  @Moves.emit _ [c] _ _ _ .punctuation (by simp) (by decide) (.steered (.enter hk))

/-- A bracket that closes a frame. -/
theorem closing_moves (s : Scanner) (c : Char) (kind : FrameKind) (cs : Text) :
    Moves s (c :: cs) ((s.emit .punctuation [c]).leave kind) cs :=
  @Moves.emit _ [c] _ _ _ .punctuation (by simp) (by decide) (.steered (.leave _ kind))

/-- A delimiter that opens a string without a marker. -/
theorem delimiter_moves (s : Scanner) {delimiter : Delimiter} (front : delimiter.text <+: c :: cs) :
    Moves s (c :: cs) (s.openString [] delimiter) (cs.drop (delimiter.text.length - 1)) := by
  obtain ⟨n, hn⟩ := Nat.exists_eq_succ_of_ne_zero
    (fun hz => delimiter.text_ne_nil (List.length_eq_zero_iff.mp hz))
  have opened := openString_moves s [] delimiter ((c :: cs).drop delimiter.text.length)
  rw [List.nil_append, List.prefix_iff_eq_append.mp front] at opened
  rw [hn] at opened ⊢
  exact opened

theorem codeStep_moves (h : s.codeStep c cs = .ok (t, rest)) : Moves s (c :: cs) t rest := by
  unfold Scanner.codeStep at h
  split at h
  case h_1 =>
    cases h
    exact lineBreak_moves s cs
  case h_2 => exact comment_moves h
  case h_3 | h_4 =>
    cases h
    exact .emits rfl (by simp) (by decide)
  case h_5 | h_6 | h_7 =>
    cases h
    exact opening_moves s _ (by simp) cs
  case h_8 | h_9 | h_10 =>
    cases h
    exact closing_moves s _ _ cs
  case h_11 =>
    cases h
    exact delimiter_moves s (ofQuotes_front rfl)
  case h_12 =>
    cases h
    exact delimiter_moves s (ofBackticks_front rfl)
  case h_13 => exact quote_moves h
  case h_14 =>
    have moved := atSign_moves s cs
    rwa [Except.ok.inj h] at moved
  case h_15 =>
    split at h
    · next blank =>
      cases h
      exact .skipped (.blank blank)
    · split at h
      · have moved := number_moves s c cs
        rwa [Except.ok.inj h] at moved
      · split at h
        · exact name_moves h
        · have moved := operator_moves s c cs
          rwa [Except.ok.inj h] at moved

theorem stringStep_moves (s : Scanner) (delimiter : Delimiter) (c : Char) (cs : Text) :
    Moves s (c :: cs) (s.stringStep delimiter c cs).1 (s.stringStep delimiter c cs).2 := by
  unfold Scanner.stringStep
  dsimp only
  split
  · next front =>
    have starts := List.isPrefixOf_iff_prefix.mp front
    have tail : Steers (s.emit .stringEnd delimiter.text)
        { s.emit .stringEnd delimiter.text with frames := s.frames.tail } :=
      .close fun _ hf => List.mem_of_mem_tail hf
    exact (Moves.emits_front starts delimiter.text_ne_nil (by decide)).trans (.steered tail)
  · split
    · next dollar =>
      subst dollar
      split
      · next rest _ =>
        refine @Moves.emit _ ['$'] ('(' :: rest) _ _ .operator (by simp) (by decide) ?_
        exact opening_moves _ '(' (by simp) rest
      · next d rest _ _ =>
        split
        · have same := Text.cutName_append rest
          refine @Moves.emit _ ['$'] (d :: rest) _ _ .operator (by simp) (by decide) ?_
          exact .emits (by simp [same]) (by simp) (by decide)
        · have same := Text.cutChunk_append delimiter.text (d :: rest)
          exact .emits (by simp [same]) (by simp) (by decide)
      · exact .emits rfl (by simp) (by decide)
    · split
      · split
        · next d rest _ =>
          have same := Text.cutChunk_append delimiter.text rest
          exact .emits (by simp [same]) (by simp) (by decide)
        · exact .emits rfl (by simp) (by decide)
      · have same := Text.cutChunk_append delimiter.text cs
        exact .emits (by simp [same]) (by simp) (by decide)

/-- A step is a sequence of moves. -/
theorem step_moves (h : s.step c cs = .ok (t, rest)) : Moves s (c :: cs) t rest := by
  unfold Scanner.step at h
  split at h
  · next delimiter _ _ _ _ =>
    have moved := stringStep_moves s delimiter c cs
    rwa [Except.ok.inj h] at moved
  · exact codeStep_moves h

section Failures

variable {e : Unterminated}

theorem comment_error (h : s.comment cs = .error e) : e.start = s.offset := by
  unfold Scanner.comment at h
  split at h
  · split at h
    · cases h
      rfl
    · cases h
  · cases h

theorem quote_error (h : s.quote cs = .error e) : e.start = s.offset := by
  unfold Scanner.quote at h
  split at h
  · cases h
  · split at h
    · cases h
      rfl
    · cases h

theorem opaqueString_error {marker text : Text} (h : s.opaqueString marker text = .error e) :
    e.start = s.offset := by
  unfold Scanner.opaqueString at h
  dsimp only at h
  split at h
  · cases h
    rfl
  · cases h

theorem name_error (h : s.name c cs = .error e) : e.start = s.offset := by
  unfold Scanner.name at h
  dsimp only at h
  split at h
  · split at h
    · cases h
    · exact opaqueString_error h
  · cases h

theorem codeStep_error (h : s.codeStep c cs = .error e) : e.start = s.offset := by
  unfold Scanner.codeStep at h
  split at h
  case h_2 => exact comment_error h
  case h_13 => exact quote_error h
  case h_15 =>
    split at h
    · cases h
    · split at h
      · cases h
      · split at h
        · exact name_error h
        · cases h
  -- the other characters are always read
  all_goals cases h

/-- A step that fails leaves open what starts in front of it. -/
theorem step_error (h : s.step c cs = .error e) : e.start = s.offset := by
  unfold Scanner.step at h
  split at h
  · cases h
  · exact codeStep_error h

end Failures

end Steps

inductive Turns : Nat → Scanner → Text → Scanner → Text → Prop where
  | none {s rest} : Turns 0 s rest s rest
  | next {n s c cs t rest u after} : s.step c cs = .ok (t, rest) → Turns n t rest u after →
      Turns (n + 1) s (c :: cs) u after

def Halts (s : Scanner) (rest : Text) (failure : Option Unterminated) : Prop :=
  rest = [] ∧ failure = s.openAtEnd ∨
    ∃ c cs e, rest = c :: cs ∧ s.step c cs = .error e ∧ failure = some e

theorem Turns.moves {n : Nat} {s t : Scanner} {rest after : Text} (h : Turns n s rest t after) :
    Moves s rest t after := by
  induction h with
  | none => exact .done
  | next ok _ ih => exact (step_moves ok).trans ih

theorem Turns.length_le {n : Nat} {s t : Scanner} {rest after : Text}
    (h : Turns n s rest t after) : n + after.length ≤ rest.length := by
  induction h with
  | none => omega
  | next ok _ ih =>
    have := Scanner.step_length ok
    simp only [List.length_cons]
    omega

/-- A run turns until it halts, by induction on the text that is left. -/
theorem run_turns (s : Scanner) (rest : Text) :
    ∃ n after, Turns n s rest (s.run rest).1 after ∧
      Halts (s.run rest).1 after (s.run rest).2 := by
  induction s, rest using Scanner.run.induct with
  | case1 s =>
    rw [Scanner.run]
    exact ⟨0, [], .none, .inl ⟨rfl, rfl⟩⟩
  | case2 s c cs e failed =>
    rw [Scanner.run]
    split
    · next e' he => exact ⟨0, c :: cs, .none, .inr ⟨c, cs, e', rfl, he, rfl⟩⟩
    · next ok =>
      rw [failed] at ok
      cases ok
  | case3 s c cs t rest ok ih =>
    rw [Scanner.run]
    split
    · next he =>
      rw [ok] at he
      cases he
    · next ok' =>
      rw [ok] at ok'
      cases ok'
      obtain ⟨n, after, turns, halts⟩ := ih
      exact ⟨n + 1, after, .next ok turns, halts⟩

/-- The tokens that a run emits, or what it leaves open. -/
theorem tokenize_eq (text : Text) :
    tokenize text =
      (Scanner.initial.run text).2.elim (.ok (Scanner.initial.run text).1.tokens) .error := by
  unfold tokenize
  generalize Scanner.initial.run text = result
  obtain ⟨s, failure⟩ := result
  cases failure with
  | none => rfl
  | some e => rfl

theorem tokenize_of_closed {text : Text} (h : (Scanner.initial.run text).2 = none) :
    tokenize text = .ok (Scanner.initial.run text).1.tokens := by
  rw [tokenize_eq, h]
  rfl

end CellBindings
