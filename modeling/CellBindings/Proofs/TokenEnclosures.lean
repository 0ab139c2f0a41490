import CellBindings.Proofs.LineContinuations

/-!
What is open around a token can be read off the tokens before it: brackets, blocks, strings and the
interpolations in them. The scanner's frames are these enclosures at every step. So a token directly
in a string follows the one before it without a gap, and one that ends a string has the delimiter of
the string that is open.
-/

namespace CellBindings

def Text.IsName (text : Text) : Prop :=
  ∃ c cs, text = c :: cs ∧ isNameStart c = true ∧ ∀ d ∈ cs, d = '!' ∨ isNameChar d = true

def Delimiter.MarkedBy (delimiter : Delimiter) (marker : Text) : Prop :=
  marker = [] ∨ marker.IsName ∧ ['\x22'] <+: delimiter.text

def Token.Starts (t : Token) (marker : Text) (delimiter : Delimiter) : Prop :=
  t.kind = .stringStart ∧ delimiter.MarkedBy marker ∧ t.text = marker ++ delimiter.text

/-- The token ends the string that another one starts: with its delimiter, and with letters behind
it only if the string has a marker that makes it opaque. -/
def Token.Ends (t start : Token) : Prop :=
  ∃ marker delimiter flags, start.Starts marker delimiter ∧ t.kind = .stringEnd ∧
    t.text = delimiter.text ++ flags ∧ (∀ c ∈ flags, c.isAlpha = true) ∧
    (flags ≠ [] → marker ≠ [] ∧ marker ≠ ['m', 'd'])

inductive Enclosure where
  | round | square | curly | block
  | interpolation
  /-- A string, with the token that starts it. -/
  | string (start : Token)
  deriving DecidableEq, Repr

namespace Enclosure

/-- No bracket closes what is open outside it. -/
def shields : Enclosure → Bool
  | .interpolation | .string _ => true
  | _ => false

/-- What is left when the innermost enclosure of some sort closes, with all that is open inside it,
if nothing in between bars the way. -/
def close? (closes bars : Enclosure → Bool) : List Enclosure → Option (List Enclosure)
  | [] => none
  | e :: outer =>
    if closes e then some outer else if bars e then none else close? closes bars outer

def close (closes bars : Enclosure → Bool) (opened : List Enclosure) : List Enclosure :=
  (close? closes bars opened).getD opened

end Enclosure

def Keyword.opensIn (word : Keyword) (last : Option Token) (opened : List Enclosure) : Bool :=
  match word with
  | .abstractKw | .primitiveKw | .beginKw => true
  | .forKw | .ifKw => opened.head?.all (· == .block) || !last.any Token.endsValue
  | _ => word.opensBlock

namespace Token

def encloseCode (t : Token) (last : Option Token) (opened : List Enclosure) : List Enclosure :=
  match t.kind with
  | .stringStart => .string t :: opened
  | .punctuation =>
    match t.text with
    | ['('] => .round :: opened
    | ['['] => .square :: opened
    | ['{'] => .curly :: opened
    | [')'] =>
      Enclosure.close (fun e => e == .round || e == .interpolation) Enclosure.shields opened
    | [']'] => Enclosure.close (· == .square) Enclosure.shields opened
    | ['}'] => Enclosure.close (· == .curly) Enclosure.shields opened
    | _ => opened
  | .keyword .endKw =>
    Enclosure.close (· == .block) (fun e => e == .square || e.shields) opened
  | .keyword word => if word.opensIn last opened then .block :: opened else opened
  | _ => opened

/-- What is open behind a token. Directly in a string, the one bracket opens an interpolation. -/
def enclose (t : Token) (last : Option Token) : List Enclosure → List Enclosure
  | .string start :: outer =>
    match t.kind with
    | .stringEnd => outer
    | .punctuation => .interpolation :: .string start :: outer
    | _ => .string start :: outer
  | opened => t.encloseCode last opened

end Token

def enclosures : List Token → List Enclosure
  | [] => []
  | t :: earlier => t.enclose earlier.head? (enclosures earlier)

def InString (earlier : List Token) : Prop :=
  ∃ start outer, enclosures earlier = .string start :: outer

/-- How a token goes with those before it, the latest of them first: strings start outside strings,
their chunks and ends stand directly in them, and there nothing is left out between tokens and a
bracket is the one behind an interpolation mark. -/
structure Token.Fits (t : Token) (earlier : List Token) : Prop where
  starts : t.kind = .stringStart → ¬ InString earlier
  chunk : t.kind = .stringChunk → InString earlier
  ends : t.kind = .stringEnd →
    ∃ start outer, enclosures earlier = .string start :: outer ∧ t.Ends start
  adjacent : InString earlier → ∃ last ∈ earlier.head?, last.span.stop = t.span.start
  bracket : InString earlier → t.kind = .punctuation →
    t.text = ['('] ∧ ∃ last ∈ earlier.head?, last.isOperator ['$'] = true

inductive AllFit : List Token → Prop where
  | nil : AllFit []
  | cons {t earlier} : t.Fits earlier → AllFit earlier → AllFit (t :: earlier)

inductive FrameKind.Shows : FrameKind → Enclosure → Prop where
  | paren : Shows .paren .round
  | square : Shows .square .square
  | curly : Shows .curly .curly
  | block : Shows .block .block
  | interpolation : Shows .interpolation .interpolation
  | string {t marker delimiter start} : t.Starts marker delimiter → t.span.start = start →
      Shows (.string delimiter start) (.string t)

def Frame.Shows (frame : Frame) (e : Enclosure) : Prop := frame.kind.Shows e

/-- The frames of the scanner are the enclosures of its tokens, all of which fit. Directly in a
string, it stands right behind the last one. -/
structure Enclosed (s : Scanner) : Prop where
  frames : List.Forall₂ Frame.Shows s.frames (enclosures s.emitted)
  fit : AllFit s.emitted
  behind : InString s.emitted → ∃ last ∈ s.emitted.head?, last.span.stop = s.offset

section Frames

variable {frames : List Frame} {opened : List Enclosure}

/-- A bracket closes the same frames as enclosures. -/
theorem closeBracket_shows (h : List.Forall₂ Frame.Shows frames opened) {kind : FrameKind}
    {closes : Enclosure → Bool} (same : ∀ k e, FrameKind.Shows k e →
      (closes e = true ↔ k = kind ∨ kind = .paren ∧ k = .interpolation)) :
    List.Forall₂ Frame.Shows ((Scanner.closeBracket kind frames).getD frames)
      (Enclosure.close closes Enclosure.shields opened) := by
  refine rel_getD ?_ h
  induction h with
  | nil => exact .none
  | @cons frame e frames opened first rest ih =>
    have found := same _ _ first
    simp only [Scanner.closeBracket, Enclosure.close?, ← found]
    split
    · exact .some rest
    · unfold Frame.Shows at first
      generalize frame.kind = k at first ⊢
      cases first with
      | paren | square | curly | block => exact ih
      | interpolation => exact .none
      | string _ _ => exact .none

/-- `end` closes the same frames as enclosures. -/
theorem closeBlock_shows (h : List.Forall₂ Frame.Shows frames opened) :
    List.Forall₂ Frame.Shows ((Scanner.closeBlock frames).getD frames)
      (Enclosure.close (· == .block) (fun e => e == .square || e.shields) opened) := by
  refine rel_getD ?_ h
  induction h with
  | nil => exact .none
  | @cons frame e frames opened first rest ih =>
    rw [Scanner.closeBlock, Enclosure.close?]
    unfold Frame.Shows at first
    generalize frame.kind = k at first ⊢
    cases first with
    | paren => exact ih
    | curly => exact ih
    | block => exact .some rest
    | square => exact .none
    | interpolation => exact .none
    | string _ _ => exact .none

theorem setTernary_shows {s : Scanner} (h : List.Forall₂ Frame.Shows s.frames opened)
    (count : Nat) : List.Forall₂ Frame.Shows (s.setTernary count).frames opened := by
  unfold Scanner.setTernary
  generalize same : s.frames = frames at h
  cases h with
  | nil => simp
  | cons first rest => exact .cons first rest

end Frames

def Token.Kind.isQuiet : Token.Kind → Bool
  | .identifier | .indexKeyword | .integer | .float | .char | .macroName | .operator
  | .ternaryColon | .newline | .unknown => true
  | _ => false

theorem encloseCode_quiet {t : Token} (h : t.kind.isQuiet = true) (last : Option Token)
    (opened : List Enclosure) : t.encloseCode last opened = opened := by
  obtain ⟨kind, text, span, spaced⟩ := t
  cases kind <;> first | rfl | cases h

theorem enclose_code {earlier : List Token} (h : ¬ InString earlier) (t : Token)
    (last : Option Token) :
    t.enclose last (enclosures earlier) = t.encloseCode last (enclosures earlier) := by
  unfold Token.enclose
  split
  · next start outer same => exact absurd ⟨start, outer, same⟩ h
  · rfl

/-- Directly in a string only its end and the bracket of an interpolation make a difference. -/
theorem enclosures_part {t : Token} {earlier : List Token} (inside : InString earlier)
    (h : t.kind ≠ .stringEnd ∧ t.kind ≠ .punctuation) :
    enclosures (t :: earlier) = enclosures earlier := by
  obtain ⟨start, outer, same⟩ := inside
  simp only [enclosures, same, Token.enclose]
  split
  · next ends => exact absurd ends h.1
  · next bracket => exact absurd bracket h.2
  · rfl

namespace Enclosed

variable {s t : Scanner}

theorem initial : Enclosed .initial where
  frames := .nil
  fit := .nil
  behind := by
    rintro ⟨start, outer, same⟩
    cases same

/-- What the scanner does besides reading may change all but the kinds of its frames. -/
theorem steer (h : Enclosed s) (offset : t.offset = s.offset) (emitted : t.emitted = s.emitted)
    (frames : List.Forall₂ Frame.Shows t.frames (enclosures s.emitted)) : Enclosed t := by
  refine ⟨?_, ?_, ?_⟩
  · rwa [emitted]
  · rw [emitted]
    exact h.fit
  · rw [emitted, offset]
    exact h.behind

theorem setTernary (h : Enclosed s) (count : Nat) : Enclosed (s.setTernary count) :=
  h.steer (Steers.setTernary s count).offset (Steers.setTernary s count).emitted
    (setTernary_shows h.frames count)

theorem skip (h : Enclosed s) (code : ¬ InString s.emitted) (gap : Text) : Enclosed (s.skip gap) :=
  ⟨h.frames, h.fit, fun inside => absurd inside code⟩

/-- A token that fits, with the frames for what is open behind it. -/
theorem emit (h : Enclosed s) {kind : Token.Kind} {lexeme : Text} {frames : List Frame}
    (fits : Token.Fits ⟨kind, lexeme, ⟨s.offset, s.offset + lexeme.byteSize⟩, s.spaced⟩ s.emitted)
    (shown : List.Forall₂ Frame.Shows frames
      (Token.enclose ⟨kind, lexeme, ⟨s.offset, s.offset + lexeme.byteSize⟩, s.spaced⟩
        s.emitted.head? (enclosures s.emitted))) :
    Enclosed { s.emit kind lexeme with frames } :=
  ⟨shown, .cons fits h.fit, fun _ => ⟨_, rfl, rfl⟩⟩

/-- A token of code. -/
theorem emitCode (h : Enclosed s) (code : ¬ InString s.emitted) {kind : Token.Kind}
    {lexeme : Text} {frames : List Frame} (other : kind ≠ .stringChunk ∧ kind ≠ .stringEnd)
    (shown : List.Forall₂ Frame.Shows frames
      (Token.encloseCode ⟨kind, lexeme, ⟨s.offset, s.offset + lexeme.byteSize⟩, s.spaced⟩
        s.emitted.head? (enclosures s.emitted))) :
    Enclosed { s.emit kind lexeme with frames } := by
  apply h.emit
  · exact ⟨fun _ => code, fun chunk => absurd chunk other.1, fun ends => absurd ends other.2,
      fun inside => absurd inside code, fun inside => absurd inside code⟩
  · rwa [enclose_code code]

/-- A token of code that opens and closes nothing. -/
theorem emitQuiet (h : Enclosed s) (code : ¬ InString s.emitted) {kind : Token.Kind}
    (quiet : kind.isQuiet = true) (lexeme : Text) : Enclosed (s.emit kind lexeme) := by
  apply h.emitCode code
  · constructor <;> (rintro rfl; cases quiet)
  · rw [encloseCode_quiet quiet]
    exact h.frames

/-- Directly in a string, a token that opens and closes nothing. -/
theorem emitPart (h : Enclosed s) (inside : InString s.emitted) {kind : Token.Kind}
    (part : kind ≠ .stringStart ∧ kind ≠ .stringEnd ∧ kind ≠ .punctuation) (lexeme : Text) :
    Enclosed (s.emit kind lexeme) := by
  apply h.emit
  · exact ⟨fun starts => absurd starts part.1, fun _ => inside, fun ends => absurd ends part.2.1,
      h.behind, fun _ bracket => absurd bracket part.2.2⟩
  · change List.Forall₂ Frame.Shows s.frames (enclosures (_ :: s.emitted))
    rw [enclosures_part inside part.2]
    exact h.frames

/-- The start of a string. -/
theorem openString (h : Enclosed s) (code : ¬ InString s.emitted) {marker : Text}
    {delimiter : Delimiter} (marked : delimiter.MarkedBy marker) :
    Enclosed (s.openString marker delimiter) := by
  apply h.emitCode code (by decide)
  exact .cons (FrameKind.Shows.string ⟨rfl, marked, rfl⟩ rfl) h.frames

/-- The end of a string. -/
theorem closeString (h : Enclosed s) {start : Token} {outer : List Enclosure} {lexeme : Text}
    (inside : enclosures s.emitted = .string start :: outer)
    (ends : Token.Ends
      ⟨.stringEnd, lexeme, ⟨s.offset, s.offset + lexeme.byteSize⟩, s.spaced⟩ start) :
    Enclosed { s.emit .stringEnd lexeme with frames := s.frames.tail } := by
  have frames := h.frames
  apply h.emit
  · exact ⟨fun starts => (by cases starts), fun chunk => (by cases chunk),
      fun _ => ⟨start, outer, inside, ends⟩, h.behind, fun _ bracket => (by cases bracket)⟩
  · rw [inside] at frames ⊢
    generalize s.frames = all at frames ⊢
    cases frames with
    | cons _ rest => exact rest

/-- The bracket of an interpolation. -/
theorem openInterpolation (h : Enclosed s) (inside : InString s.emitted)
    (mark : ∃ last ∈ s.emitted.head?, last.isOperator ['$'] = true) :
    Enclosed ((s.emit .punctuation ['(']).enter .interpolation) := by
  obtain ⟨start, outer, same⟩ := inside
  have frames := h.frames
  apply h.emit
  · exact ⟨fun starts => (by cases starts), fun chunk => (by cases chunk),
      fun ends => (by cases ends), h.behind, fun _ _ => ⟨rfl, mark⟩⟩
  · rw [same] at frames ⊢
    exact .cons .interpolation frames

end Enclosed

theorem cutName_chars (text : Text) :
    ∀ d ∈ (Text.cutName text).1, d = '!' ∨ isNameChar d = true := by
  induction text with
  | nil => exact fun d hd => absurd hd List.not_mem_nil
  | cons c cs ih =>
    simp only [Text.cutName]
    split
    · next taken =>
      intro d hd
      rcases List.mem_cons.mp hd with rfl | hd
      · simp only [Bool.or_eq_true, Bool.and_eq_true, beq_iff_eq] at taken
        exact taken.imp_left And.left
      · exact ih d hd
    · exact fun d hd => absurd hd List.not_mem_nil

theorem ofQuotes_quote (text : Text) : ['\x22'] <+: (Delimiter.ofQuotes text).text := by
  unfold Delimiter.ofQuotes
  split
  · decide
  · decide

theorem isName_cutName {c : Char} (h : isNameStart c = true) (cs : Text) :
    Text.IsName (c :: (Text.cutName cs).1) :=
  ⟨c, _, rfl, h, cutName_chars cs⟩

/-- The contextual words are not reserved. -/
theorem ofName?_reserved {name : Text} {word : Keyword} (h : Keyword.ofName? name = some word) :
    word ≠ .abstractKw ∧ word ≠ .primitiveKw := by
  have all : ∀ p ∈ Keyword.reserved, p.2 ≠ .abstractKw ∧ p.2 ≠ .primitiveKw := by decide
  obtain ⟨before, after, same, -⟩ := List.lookup_eq_some_iff.mp h
  exact all (name, word) (by simp [same])

/-- A word other than `end` opens a block or nothing. -/
theorem encloseCode_keyword {t : Token} {word : Keyword} (kind : t.kind = .keyword word)
    (other : word ≠ .endKw) (last : Option Token) (opened : List Enclosure) :
    t.encloseCode last opened = if word.opensIn last opened then .block :: opened else opened := by
  obtain ⟨_, text, span, spaced⟩ := t
  subst kind
  cases word <;> first | rfl | exact absurd rfl other

section Steps

variable {s t : Scanner} {c : Char} {cs rest : Text}

theorem atStatementLevel_shows (h : Enclosed s) :
    s.atStatementLevel = (enclosures s.emitted).head?.all (· == .block) := by
  have frames := h.frames
  unfold Scanner.atStatementLevel
  generalize s.frames = fs at frames ⊢
  generalize enclosures s.emitted = opened at frames ⊢
  cases frames with
  | nil => rfl
  | @cons frame e _ _ first _ =>
    unfold Frame.Shows at first
    dsimp only
    generalize frame.kind = kind at first ⊢
    cases first <;> rfl

theorem opensBlock_shows (h : Enclosed s) {word : Keyword}
    (reserved : word ≠ .abstractKw ∧ word ≠ .primitiveKw) (begins : word ≠ .beginKw) :
    s.opensBlock word = word.opensIn s.emitted.head? (enclosures s.emitted) := by
  have level := atStatementLevel_shows h
  cases word with
  | abstractKw => exact absurd rfl reserved.1
  | primitiveKw => exact absurd rfl reserved.2
  | beginKw => exact absurd rfl begins
  | forKw | ifKw =>
    simp [Scanner.opensBlock, Keyword.opensBlock, Keyword.opensIn, level, Scanner.lastEndsValue]
  | _ => rfl

section Code

variable (h : Enclosed s) (code : ¬ InString s.emitted)
include h code

theorem lineBreak_enclosed : Enclosed s.lineBreak := by
  have same := (Steers.setTernary s 0).emitted
  have inside : ¬ InString (s.setTernary 0).emitted := by rwa [same]
  have reset := h.setTernary 0
  unfold Scanner.lineBreak
  split
  · dsimp only
    split
    · have broken : Enclosed ((s.setTernary 0).emit .newline ['\n']) :=
        reset.emitQuiet inside rfl _
      exact broken.steer rfl rfl broken.frames
    · exact reset.skip inside _
  · exact h.skip code _

theorem comment_enclosed (ok : s.comment cs = .ok (t, rest)) : Enclosed t := by
  obtain ⟨gap, rfl⟩ := comment_skips ok
  exact h.skip code gap

theorem quote_enclosed (ok : s.quote cs = .ok (t, rest)) : Enclosed t := by
  unfold Scanner.quote at ok
  split at ok
  · cases ok
    exact h.emitQuiet code rfl _
  · split at ok
    · cases ok
    · cases ok
      exact h.emitQuiet code rfl _

theorem atSign_enclosed (cs : Text) : Enclosed (s.atSign cs).1 := by
  unfold Scanner.atSign
  split
  · exact h.emitQuiet code rfl _
  · split
    · exact h.emitQuiet code rfl _
    · exact h.emitQuiet code rfl _
  · exact h.emitQuiet code rfl _

theorem number_enclosed (c : Char) (cs : Text) : Enclosed (s.number c cs).1 := by
  rcases cut : Text.cutNumber c cs with ⟨float, digits, rest⟩
  simp only [Scanner.number, cut]
  cases float <;> exact h.emitQuiet code rfl _

theorem opaqueString_enclosed {marker text : Text} (name : marker.IsName)
    (other : marker ≠ ['m', 'd']) (ok : s.opaqueString marker text = .ok (t, rest)) : Enclosed t := by
  unfold Scanner.opaqueString at ok
  dsimp only at ok
  split at ok
  · cases ok
  · next inside back _ =>
    cases ok
    have marked : (Delimiter.ofQuotes text).MarkedBy marker := .inr ⟨name, ofQuotes_quote text⟩
    generalize Delimiter.ofQuotes text = delimiter at marked ⊢
    have named : marker ≠ [] := by
      rintro rfl
      obtain ⟨c, cs, same, -⟩ := name
      cases same
    have flags : ∀ c ∈ (back.drop delimiter.text.length).takeWhile Char.isAlpha, c.isAlpha = true :=
      List.all_eq_true.mp List.all_takeWhile
    -- the string is opened and closed in one step
    have started := h.openString code marked
    obtain ⟨start, starts, opened⟩ : ∃ start : Token, start.Starts marker delimiter ∧
        enclosures (s.openString marker delimiter).emitted = .string start :: enclosures s.emitted :=
      ⟨_, ⟨rfl, marked, rfl⟩, enclose_code code _ _⟩
    have ends (span : Span) (spaced : Bool) : Token.Ends ⟨.stringEnd, delimiter.text ++
        (back.drop delimiter.text.length).takeWhile Char.isAlpha, span, spaced⟩ start :=
      ⟨marker, delimiter, _, starts, rfl, rfl, flags, fun _ => ⟨named, other⟩⟩
    cases inside with
    | nil => exact started.closeString opened (ends _ _)
    | cons c cs =>
      have inside : InString (s.openString marker delimiter).emitted := ⟨_, _, opened⟩
      have part : Enclosed ((s.openString marker delimiter).emit .stringChunk (c :: cs)) :=
        started.emitPart inside (by decide) _
      exact part.closeString ((enclosures_part inside (by simp)).trans opened) (ends _ _)

theorem word_enclosed (name rest : Text) : Enclosed (s.word name rest) := by
  have untyped : Enclosed { s with typeNext := false } := h.steer rfl rfl h.frames
  have opens (word : Keyword) (opening : ∀ last opened, word.opensIn last opened = true)
      (other : word ≠ .endKw) :
      Enclosed ((Scanner.emit { s with typeNext := false } (.keyword word) name).enter .block) := by
    apply untyped.emitCode code (by simp)
    rw [encloseCode_keyword rfl other, opening, if_pos rfl]
    exact .cons .block h.frames
  -- a word opens a block, closes one, or leaves all frames as they are
  unfold Scanner.word
  dsimp only
  split
  · exact untyped.emitCode code (by decide) h.frames
  split
  · have opened := opens .abstractKw (fun _ _ => rfl) (by decide)
    exact opened.steer rfl rfl opened.frames
  split
  · have opened := opens .primitiveKw (fun _ _ => rfl) (by decide)
    exact opened.steer rfl rfl opened.frames
  split
  · exact untyped.emitCode code (by decide) h.frames
  split
  · exact untyped.emitQuiet code rfl name
  · split
    · exact untyped.emitQuiet code rfl name
    · exact opens .beginKw (fun _ _ => rfl) (by decide)
  · split
    · exact untyped.emitQuiet code rfl name
    · exact untyped.emitCode code (by decide) (closeBlock_shows h.frames)
  · next word begins ends found =>
    have same := opensBlock_shows untyped (ofName?_reserved found) (fun is => begins is)
    split
    · next opening =>
      apply untyped.emitCode code (by simp)
      rw [encloseCode_keyword rfl (fun is => ends is), ← same, if_pos opening]
      exact .cons .block h.frames
    · next opening =>
      apply untyped.emitCode code (by simp)
      rw [encloseCode_keyword rfl (fun is => ends is), ← same, if_neg opening]
      exact h.frames

theorem name_enclosed (start : isNameStart c = true)
    (ok : s.name c cs = .ok (t, rest)) : Enclosed t := by
  have named := isName_cutName start cs
  unfold Scanner.name at ok
  dsimp only at ok
  split at ok
  · split at ok
    · cases ok
      exact h.openString code (.inr ⟨named, ofQuotes_quote _⟩)
    · next other =>
      exact opaqueString_enclosed h code named (by simpa using other) ok
  · cases ok
    exact word_enclosed h code _ _

theorem operator_enclosed (c : Char) (cs : Text) : Enclosed (s.operator c cs).1 := by
  have counted (count : Nat) : ¬ InString (s.setTernary count).emitted := by
    rwa [(Steers.setTernary s count).emitted]
  unfold Scanner.operator
  split
  · exact h.emitQuiet code rfl _
  · dsimp only
    split
    · exact (h.setTernary _).emitQuiet (counted _) rfl _
    · split
      · exact (h.setTernary _).emitQuiet (counted _) rfl _
      · exact h.emitQuiet code rfl _

theorem codeStep_enclosed (ok : s.codeStep c cs = .ok (t, rest)) : Enclosed t := by
  unfold Scanner.codeStep at ok
  split at ok
  case h_1 =>
    cases ok
    exact lineBreak_enclosed h code
  case h_2 => exact comment_enclosed h code ok
  case h_3 | h_4 =>
    cases ok
    exact h.emitCode code (by decide) h.frames
  case h_5 =>
    cases ok
    exact h.emitCode code (by decide) (.cons .paren h.frames)
  case h_6 =>
    cases ok
    exact h.emitCode code (by decide) (.cons .square h.frames)
  case h_7 =>
    cases ok
    exact h.emitCode code (by decide) (.cons .curly h.frames)
  case h_8 | h_9 | h_10 =>
    cases ok
    apply h.emitCode code (by decide)
    apply closeBracket_shows h.frames
    intro kind e shows
    cases shows <;> simp
  case h_11 | h_12 =>
    cases ok
    exact h.openString code (.inl rfl)
  case h_13 => exact quote_enclosed h code ok
  case h_14 =>
    have enclosed := atSign_enclosed h code cs
    rwa [Except.ok.inj ok] at enclosed
  case h_15 =>
    split at ok
    · cases ok
      exact h.skip code _
    · split at ok
      · have enclosed := number_enclosed h code c cs
        rwa [Except.ok.inj ok] at enclosed
      · split at ok
        · next start => exact name_enclosed h code start ok
        · have enclosed := operator_enclosed h code c cs
          rwa [Except.ok.inj ok] at enclosed

end Code

theorem stringStep_enclosed (h : Enclosed s) {start : Token} {marker : Text} {delimiter : Delimiter}
    {outer : List Enclosure} (inside : enclosures s.emitted = .string start :: outer)
    (starts : start.Starts marker delimiter) (c : Char) (cs : Text) :
    Enclosed (s.stringStep delimiter c cs).1 := by
  have within : InString s.emitted := ⟨start, outer, inside⟩
  have chunk (text : Text) : Enclosed (s.emit .stringChunk text) :=
    h.emitPart within (by decide) text
  have dollar : Enclosed (s.emit .operator ['$']) := h.emitPart within (by decide) _
  have behind : InString (s.emit .operator ['$']).emitted :=
    ⟨start, outer, (enclosures_part within (by simp)).trans inside⟩
  unfold Scanner.stringStep
  dsimp only
  split
  · apply h.closeString inside
    exact ⟨marker, delimiter, [], starts, rfl, (List.append_nil _).symm, by simp, by simp⟩
  · split
    · split
      · exact dollar.openInterpolation behind ⟨_, rfl, rfl⟩
      · split
        · exact dollar.emitPart behind (by decide) _
        · exact chunk _
      · exact chunk _
    · split
      · split
        · exact chunk _
        · exact chunk _
      · exact chunk _

/-- A step keeps the frames the enclosures of the tokens. -/
theorem step_enclosed (h : Enclosed s) (ok : s.step c cs = .ok (t, rest)) : Enclosed t := by
  -- the innermost frame decides how the step reads, and it is the innermost enclosure
  have frames := h.frames
  unfold Scanner.step at ok
  split at ok
  · next delimiter start pending outer same =>
    rw [same] at frames
    obtain ⟨e, opened, first, -, inside⟩ := List.forall₂_cons_left_iff.mp frames
    cases first with
    | string starts _ =>
      have enclosed := stringStep_enclosed h inside starts c cs
      rwa [Except.ok.inj ok] at enclosed
  · next code =>
    refine codeStep_enclosed h ?_ ok
    rintro ⟨start, opened, inside⟩
    rw [inside] at frames
    obtain ⟨⟨kind, pending⟩, outer, first, -, same⟩ := List.forall₂_cons_right_iff.mp frames
    cases first with
    | string _ _ => exact code _ _ _ _ same

end Steps

/-- Through a whole run. -/
theorem Turns.enclosed {n : Nat} {s t : Scanner} {rest after : Text} (h : Turns n s rest t after)
    (start : Enclosed s) : Enclosed t := by
  induction h with
  | none => exact start
  | next ok _ ih => exact ih (step_enclosed start ok)

end CellBindings
