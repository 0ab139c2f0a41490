import CellBindings.Proofs.LosslessTokens
import CellBindings.Proofs.ScannerSeams
import CellBindings.Report.Basic

/-!
Lines at the top level are read on their own. A line break outside all frames puts the scanner back
into its first state, but for its place and the tokens behind it, and neither of these changes what
it does next. So the tokens of a text behind the break are its own, moved to their place.
-/

namespace CellBindings

def Token.shift (t : Token) (base : Nat) : Token := { t with span := t.span.shift base }

def Unterminated.shift (e : Unterminated) (base : Nat) : Unterminated :=
  { e with start := base + e.start }

def FrameKind.shift : FrameKind → Nat → FrameKind
  | .string delimiter start, base => .string delimiter (base + start)
  | kind, _ => kind

def Frame.shift (frame : Frame) (base : Nat) : Frame :=
  { frame with kind := frame.kind.shift base }

/-- The scanner as it would be with some tokens, the latest of them first, and so many bytes before
all that it has read. -/
def Scanner.behind (earlier : List Token) (base : Nat) (s : Scanner) : Scanner :=
  { s with
    offset := base + s.offset
    emitted := s.emitted.map (·.shift base) ++ earlier
    frames := s.frames.map (·.shift base) }

def stepBehind (earlier : List Token) (base : Nat) :
    Except Unterminated (Scanner × Text) → Except Unterminated (Scanner × Text)
  | .error e => .error (e.shift base)
  | .ok (s, rest) => .ok (s.behind earlier base, rest)

section Frames

variable (base : Nat)

theorem inIndex_shift (frames : List Frame) :
    Scanner.inIndex (frames.map (·.shift base)) = Scanner.inIndex frames := by
  induction frames with
  | nil => rfl
  | cons frame frames ih =>
    obtain ⟨kind, pending⟩ := frame
    cases kind with
    | paren => exact ih
    | curly => exact ih
    | _ => rfl

theorem closeBlock_shift (frames : List Frame) :
    Scanner.closeBlock (frames.map (·.shift base)) =
      (Scanner.closeBlock frames).map (List.map (·.shift base)) := by
  induction frames with
  | nil => rfl
  | cons frame frames ih =>
    obtain ⟨kind, pending⟩ := frame
    cases kind with
    | paren => exact ih
    | curly => exact ih
    | _ => rfl

/-- A bracket closes the same frame wherever the strings around it start. -/
theorem closeBracket_shift {kind : FrameKind}
    (fixed : ∀ delimiter start, kind ≠ .string delimiter start) (frames : List Frame) :
    Scanner.closeBracket kind (frames.map (·.shift base)) =
      (Scanner.closeBracket kind frames).map (List.map (·.shift base)) := by
  induction frames with
  | nil => rfl
  | cons frame frames ih =>
    obtain ⟨other, pending⟩ := frame
    cases other with
    | string delimiter start =>
      have here := fun place => (fixed delimiter place).symm
      simp [Scanner.closeBracket, Frame.shift, FrameKind.shift, here]
    | interpolation =>
      simp only [List.map_cons, Frame.shift, FrameKind.shift, Scanner.closeBracket]
      split
      · rfl
      · rfl
    | paren | square | curly | block =>
      simp only [List.map_cons, Frame.shift, FrameKind.shift, Scanner.closeBracket]
      split
      · rfl
      · exact ih

theorem findSome?_shift {F : Frame → Option Unterminated}
    (moves : ∀ frame, F (frame.shift base) = (F frame).map (·.shift base)) (frames : List Frame) :
    (frames.map (·.shift base)).reverse.findSome? F =
      (frames.reverse.findSome? F).map (·.shift base) := by
  rw [← List.map_reverse, List.findSome?_map, List.map_findSome?]
  exact congrArg (fun G => frames.reverse.findSome? G) (funext moves)

end Frames

namespace Scanner

variable (earlier : List Token) (base : Nat) (s : Scanner)

theorem spaced_behind : (s.behind earlier base).spaced = s.spaced := rfl

theorem typeNext_behind : (s.behind earlier base).typeNext = s.typeNext := rfl

theorem inIndex_behind : inIndex (s.behind earlier base).frames = inIndex s.frames :=
  inIndex_shift base s.frames

theorem closeBlock_behind : closeBlock (s.behind earlier base).frames =
    (closeBlock s.frames).map (List.map (·.shift base)) :=
  closeBlock_shift base s.frames

theorem emit_retype (flag : Bool) (kind : Token.Kind) (lexeme : Text) :
    emit { s with typeNext := flag } kind lexeme = { s.emit kind lexeme with typeNext := flag } :=
  rfl

theorem opensBlock_retype (flag : Bool) (keyword : Keyword) :
    opensBlock { s with typeNext := flag } keyword = s.opensBlock keyword :=
  rfl

theorem emit_behind (kind : Token.Kind) (lexeme : Text) :
    (s.behind earlier base).emit kind lexeme = (s.emit kind lexeme).behind earlier base := by
  simp [emit, behind, Token.shift, Span.shift, Nat.add_assoc]

theorem skip_behind (gap : Text) :
    (s.behind earlier base).skip gap = (s.skip gap).behind earlier base := by
  simp [skip, behind, Nat.add_assoc]

theorem pendingTernary_behind : (s.behind earlier base).pendingTernary = s.pendingTernary := by
  obtain ⟨offset, emitted, frames, root, spaced, typeNext⟩ := s
  cases frames <;> rfl

theorem setTernary_behind (count : Nat) :
    (s.behind earlier base).setTernary count = (s.setTernary count).behind earlier base := by
  obtain ⟨offset, emitted, frames, root, spaced, typeNext⟩ := s
  cases frames <;> rfl

theorem atStatementLevel_behind :
    (s.behind earlier base).atStatementLevel = s.atStatementLevel := by
  obtain ⟨offset, emitted, frames, root, spaced, typeNext⟩ := s
  cases frames with
  | nil => rfl
  | cons frame frames =>
    obtain ⟨kind, pending⟩ := frame
    cases kind <;> rfl

theorem leave_behind {kind : FrameKind}
    (fixed : ∀ delimiter start, kind ≠ .string delimiter start) :
    (s.behind earlier base).leave kind = (s.leave kind).behind earlier base := by
  have closed := closeBracket_shift base fixed s.frames
  unfold leave
  rw [show (s.behind earlier base).frames = s.frames.map (·.shift base) from rfl, closed]
  cases closeBracket kind s.frames <;> rfl

theorem openAtEnd_behind :
    (s.behind earlier base).openAtEnd = s.openAtEnd.map (·.shift base) := by
  obtain ⟨offset, emitted, frames, root, spaced, typeNext⟩ := s
  cases frames with
  | nil => rfl
  | cons frame frames =>
    obtain ⟨kind, pending⟩ := frame
    cases kind with
    | string delimiter start => rfl
    | _ =>
      refine findSome?_shift base ?_ (⟨_, pending⟩ :: frames)
      rintro ⟨kind, pending⟩
      cases kind <;> rfl

end Scanner

section Steps

variable {earlier : List Token} (breaks : ∀ t ∈ earlier.head?, t.kind = .newline) (base : Nat)
  (s : Scanner)
include breaks

/-- A line break before the first token is, to all that asks for the last token, as good as none. -/
theorem any_last_behind {p : Token → Bool} (moves : ∀ t : Token, p (t.shift base) = p t)
    (skips : ∀ t : Token, t.kind = .newline → p t = false) :
    (s.behind earlier base).emitted.head?.any p = s.emitted.head?.any p := by
  obtain ⟨offset, emitted, frames, root, spaced, typeNext⟩ := s
  cases emitted with
  | cons last emitted => exact moves last
  | nil =>
    cases earlier with
    | nil => rfl
    | cons t earlier => exact skips t (breaks t rfl)

theorem lastEndsValue_behind : (s.behind earlier base).lastEndsValue = s.lastEndsValue := by
  apply any_last_behind breaks
  · exact fun t => rfl
  · intro t newline
    simp [Token.endsValue, newline]

theorem lineBreak_behind : (s.behind earlier base).lineBreak = s.lineBreak.behind earlier base := by
  have last (s : Scanner) := @any_last_behind earlier breaks base s
    (fun t => t.kind != .newline && !t.continuesLine) (fun t => rfl)
    (fun t newline => by simp [newline])
  unfold Scanner.lineBreak
  simp only [Scanner.atStatementLevel_behind, Scanner.setTernary_behind, last,
    Scanner.skip_behind, Scanner.emit_behind]
  split
  · split
    · rfl
    · rfl
  · rfl

omit breaks in
theorem comment_behind (cs : Text) :
    (s.behind earlier base).comment cs = stepBehind earlier base (s.comment cs) := by
  unfold Scanner.comment
  split
  · split
    · rfl
    · rw [Scanner.skip_behind]
      rfl
  · rw [Scanner.skip_behind]
    rfl

theorem quote_behind (cs : Text) :
    (s.behind earlier base).quote cs = stepBehind earlier base (s.quote cs) := by
  unfold Scanner.quote
  simp only [lastEndsValue_behind breaks, Scanner.spaced_behind, Scanner.emit_behind]
  split
  · rfl
  · split
    · rfl
    · rfl

omit breaks in
theorem atSign_behind (cs : Text) : (s.behind earlier base).atSign cs =
    ((s.atSign cs).1.behind earlier base, (s.atSign cs).2) := by
  unfold Scanner.atSign
  simp only [Scanner.emit_behind]
  split
  · rfl
  · split
    · rfl
    · rfl
  · rfl

omit breaks in
theorem number_behind (c : Char) (cs : Text) : (s.behind earlier base).number c cs =
    ((s.number c cs).1.behind earlier base, (s.number c cs).2) := by
  unfold Scanner.number
  simp only [Scanner.emit_behind]

omit breaks in
theorem openString_behind (marker : Text) (delimiter : Delimiter) :
    (s.behind earlier base).openString marker delimiter =
      (s.openString marker delimiter).behind earlier base := by
  unfold Scanner.openString
  rw [Scanner.emit_behind]
  rfl

omit breaks in
theorem opaqueString_behind (marker text : Text) :
    (s.behind earlier base).opaqueString marker text =
      stepBehind earlier base (s.opaqueString marker text) := by
  unfold Scanner.opaqueString
  dsimp only
  split
  · rfl
  · simp only [Scanner.emit_behind]
    split
    · rw [Scanner.emit_behind]
      rfl
    · rw [Scanner.emit_behind]
      rfl

theorem opensBlock_behind (keyword : Keyword) :
    (s.behind earlier base).opensBlock keyword = s.opensBlock keyword := by
  simp only [Scanner.opensBlock, Scanner.atStatementLevel_behind, lastEndsValue_behind breaks]

theorem word_behind (name rest : Text) :
    (s.behind earlier base).word name rest = (s.word name rest).behind earlier base := by
  unfold Scanner.word
  simp only [Scanner.typeNext_behind, Scanner.inIndex_behind, Scanner.closeBlock_behind,
    Scanner.emit_retype, Scanner.emit_behind, Scanner.opensBlock_retype, opensBlock_behind breaks]
  split
  · rfl
  split
  · rfl
  split
  · rfl
  split
  · rfl
  split
  · rfl
  · split
    · rfl
    · rfl
  · split
    · rfl
    · cases Scanner.closeBlock s.frames <;> rfl
  · split
    · next opens =>
      simp only [opens, if_true]
      rfl
    · next shut =>
      simp only [shut]
      rfl

theorem name_behind (c : Char) (cs : Text) :
    (s.behind earlier base).name c cs = stepBehind earlier base (s.name c cs) := by
  unfold Scanner.name
  simp only [openString_behind, opaqueString_behind, word_behind breaks]
  split
  · split
    · rfl
    · rfl
  · rfl

omit breaks in
theorem operator_behind (c : Char) (cs : Text) : (s.behind earlier base).operator c cs =
    ((s.operator c cs).1.behind earlier base, (s.operator c cs).2) := by
  unfold Scanner.operator
  simp only [Scanner.pendingTernary_behind, Scanner.setTernary_behind, Scanner.spaced_behind,
    Scanner.emit_behind]
  split
  · rfl
  · split
    · rfl
    · split
      · rfl
      · rfl

theorem codeStep_behind (c : Char) (cs : Text) :
    (s.behind earlier base).codeStep c cs = stepBehind earlier base (s.codeStep c cs) := by
  unfold Scanner.codeStep
  split
  case h_1 =>
    rw [lineBreak_behind breaks]
    rfl
  case h_2 => exact comment_behind base s cs
  case h_3 | h_4 | h_5 | h_6 | h_7 =>
    rw [Scanner.emit_behind]
    rfl
  case h_8 | h_9 | h_10 =>
    rw [Scanner.emit_behind, Scanner.leave_behind _ _ _ (by simp)]
    rfl
  case h_11 | h_12 =>
    dsimp only
    rw [openString_behind]
    rfl
  case h_13 => exact quote_behind breaks base s cs
  case h_14 =>
    rw [atSign_behind]
    rfl
  case h_15 =>
    have fraction : (s.behind earlier base).startsFraction cs = s.startsFraction cs := by
      simp only [Scanner.startsFraction, Scanner.spaced_behind, lastEndsValue_behind breaks]
    rw [fraction]
    split
    · rw [Scanner.skip_behind]
      rfl
    split
    · rw [number_behind]
      rfl
    split
    · exact name_behind breaks base s c cs
    · rw [operator_behind]
      rfl

omit breaks in
theorem stringStep_behind (delimiter : Delimiter) (c : Char) (cs : Text) :
    (s.behind earlier base).stringStep delimiter c cs =
      ((s.stringStep delimiter c cs).1.behind earlier base, (s.stringStep delimiter c cs).2) := by
  unfold Scanner.stringStep
  simp only [Scanner.emit_behind]
  split
  · simp only [Scanner.behind, List.map_tail]
  split
  · split
    · rfl
    · split
      · rfl
      · rfl
    · rfl
  split
  · split
    · rfl
    · rfl
  · rfl

theorem step_behind (c : Char) (cs : Text) :
    (s.behind earlier base).step c cs = stepBehind earlier base (s.step c cs) := by
  have string := @stringStep_behind earlier base s
  have code := codeStep_behind breaks base s c cs
  obtain ⟨offset, emitted, frames, root, spaced, typeNext⟩ := s
  cases frames with
  | nil => exact code
  | cons frame frames =>
    obtain ⟨kind, pending⟩ := frame
    cases kind with
    | string delimiter start => exact congrArg Except.ok (string delimiter c cs)
    | paren | square | curly | block | interpolation => exact code

/-- Tokens before it, the last of them a line break, do not change what a scanner does, by induction
on what is left of the text. -/
theorem run_behind (text : Text) : (s.behind earlier base).run text =
    ((s.run text).1.behind earlier base, (s.run text).2.map (·.shift base)) := by
  induction s, text using Scanner.run.induct with
  | case1 s =>
    rw [Scanner.run, Scanner.run, Scanner.openAtEnd_behind]
  | case2 s c cs e failed =>
    have step := step_behind breaks base s c cs
    rw [failed] at step
    rw [run_of_error step, run_of_error failed]
    rfl
  | case3 s c cs t rest ok ih =>
    have step := step_behind breaks base s c cs
    rw [ok] at step
    rw [run_of_step step, run_of_step ok, ih]

end Steps

/-- What a text adds to its tokens when a line break is put behind it: a token for the break, unless
there are none yet or the last one is a line break already. -/
def breakAfter (text : Text) (ts : List Token) : List Token :=
  if ts.getLast?.any (·.kind != .newline) then
    [⟨.newline, ['\n'], ⟨text.byteSize, text.byteSize + 1⟩, stopAfter 0 ts < text.byteSize⟩]
  else []

section Breaks

variable {text : Text} {s : Scanner}

theorem breakAfter_last (text : Text) (ts : List Token) :
    ∀ t ∈ (ts ++ breakAfter text ts).getLast?, t.kind = .newline := by
  intro t last
  rw [breakAfter] at last
  split at last
  · rw [List.getLast?_concat] at last
    cases last
    rfl
  · next none =>
    rw [List.append_nil] at last
    simpa [Option.mem_def.mp last] using none

/-- At the end of a text whose last token is no line break, the scanner has a gap behind it just if
the token does not end the text. -/
theorem Accounted.spaced_eq (h : Accounted text s []) {last : Token}
    (final : s.tokens.getLast? = some last) (other : last.kind ≠ .newline) :
    s.spaced = decide (stopAfter 0 s.tokens < s.offset) := by
  rw [Bool.eq_iff_iff, decide_eq_true_iff, h.flag]
  constructor
  · rintro (none | before | ⟨t, found, newline⟩)
    · simp [none] at final
    · exact before
    · rw [final] at found
      cases found
      exact absurd newline other
  · exact fun before => .inr (.inl before)

/-- At the top level a line break takes the scanner back to its first state, behind the tokens so
far and one for the break. -/
theorem lineBreak_initial (h : Accounted text s []) (closed : s.frames = [])
    (plain : s.typeNext = false) (ends : ∀ t ∈ s.tokens.getLast?, t.continuesLine = false) :
    s.lineBreak = Scanner.initial.behind (s.tokens ++ breakAfter text s.tokens).reverse
      (text.byteSize + 1) := by
  have offset : s.offset = text.byteSize := by
    obtain ⟨front, cut, size⟩ := h.cut
    rw [cut, List.append_nil, size]
  have latest : s.emitted.head? = s.tokens.getLast? := by simp [Scanner.tokens]
  have emitted : s.emitted = s.tokens.reverse := by simp [Scanner.tokens]
  have one : Text.byteSize ['\n'] = 1 := by decide
  -- a line break that is no token leaves the tokens, and all else is forgotten
  have skipped : Scanner.skip { s with rootTernary := 0 } ['\n'] =
      Scanner.initial.behind s.tokens.reverse (text.byteSize + 1) := by
    simp [Scanner.skip, Scanner.behind, Scanner.initial, offset, emitted, closed, plain, one]
  rw [lineBreak_of_top closed, latest, breakAfter]
  cases final : s.tokens.getLast? with
  | none => simpa using skipped
  | some last =>
    by_cases newline : last.kind = .newline
    · simpa [newline] using skipped
    · have spaced := h.spaced_eq final newline
      have stays := ends last final
      simp [Scanner.emit, Scanner.behind, Scanner.initial, offset, emitted, closed, plain, one,
        newline, stays, spaced]

end Breaks

/-- Tokens are local to lines at the top level. Behind a text that is read to its end, with no frame
and no `type` pending and not in the middle of a line, the tokens of another text are its own, moved
behind the line break, and so is its failure. -/
theorem tokens_behind_line (a b : Text) (ts : List Token) (ok : tokenize a = .ok ts)
    (closed : (Scanner.initial.run a).1.frames = [])
    (plain : (Scanner.initial.run a).1.typeNext = false)
    (ends : ∀ t ∈ ts.getLast?, t.continuesLine = false) :
    tokenize (a ++ '\n' :: b) =
      ((tokenize b).mapError (·.shift (a.byteSize + 1))).map fun us =>
        ts ++ (breakAfter a ts ++ us.map (·.shift (a.byteSize + 1))) := by
  obtain ⟨n, s, turns, run, -, rfl⟩ := tokenize_turns ok
  replace closed : s.frames = [] := by rwa [run] at closed
  replace plain : s.typeNext = false := by rwa [run] at plain
  have broken := lineBreak_initial ((Accounted.initial a).moves turns.moves) closed plain ends
  have breaks := breakAfter_last a s.tokens
  rw [← List.head?_reverse] at breaks
  -- the scanner comes to the break as to the end of the first text, and goes on as from a start
  have behind := turns.run_break closed (by simpa [Scanner.tokens] using ends) b
  rw [broken, run_behind breaks] at behind
  rw [tokenize_eq, tokenize_eq, behind]
  cases (Scanner.initial.run b).2 with
  | some e => rfl
  | none => simp [Except.map, Except.mapError, Scanner.tokens, Scanner.behind]

/-- Behind a line break a quote is no adjoint of the value before the break, and a string that is
left open starts where it would in the second text alone. -/
theorem quote_behind_line :
    tokenize ['a', ' '] = .ok [⟨.identifier, ['a'], ⟨0, 1⟩, true⟩] ∧
    (Scanner.initial.run ['a', ' ']).1.frames = [] ∧
    (Scanner.initial.run ['a', ' ']).1.typeNext = false ∧
    tokenize ['a', ' ', '\n', '\x27', 'b', '\x27'] = .ok [⟨.identifier, ['a'], ⟨0, 1⟩, true⟩,
      ⟨.newline, ['\n'], ⟨2, 3⟩, true⟩, ⟨.char, ['\x27', 'b', '\x27'], ⟨3, 6⟩, true⟩] ∧
    tokenize ['a', ' ', '\n', '\x22', 'b'] = .error ⟨.string, 3⟩ := by
  have ok : tokenize ['a', ' '] = .ok [⟨.identifier, ['a'], ⟨0, 1⟩, true⟩] := by
    rw [tokenize_of_closed (by decide +kernel)]
    exact congrArg Except.ok (by decide +kernel)
  have closed : (Scanner.initial.run ['a', ' ']).1.frames = [] := by decide +kernel
  have plain : (Scanner.initial.run ['a', ' ']).1.typeNext = false := by decide +kernel
  have behind (b : Text) :=
    tokens_behind_line ['a', ' '] b _ ok closed plain (by simp [Token.continuesLine])
  refine ⟨ok, closed, plain, ?_, ?_⟩
  · have char : tokenize ['\x27', 'b', '\x27'] =
        .ok [⟨.char, ['\x27', 'b', '\x27'], ⟨0, 3⟩, true⟩] := by
      rw [tokenize_of_closed (by decide +kernel)]
      exact congrArg Except.ok (by decide +kernel)
    have moved := behind ['\x27', 'b', '\x27']
    rw [char] at moved
    exact moved.trans (by decide +kernel)
  · have string : tokenize ['\x22', 'b'] = .error ⟨.string, 0⟩ := by decide +kernel
    have moved := behind ['\x22', 'b']
    rw [string] at moved
    exact moved

end CellBindings
