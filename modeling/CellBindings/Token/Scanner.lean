import CellBindings.Token.Basic
import CellBindings.Token.Lexeme

/-!
The scanner turns a text into tokens in one pass. It keeps a stack of open frames: brackets, blocks
closed by `end`, strings and their interpolations. The frames decide what the grammar cannot see:
whether a line break separates statements, whether `end` closes a block or indexes an array, and
whether a colon belongs to a conditional expression.

A step takes at least one character, so scanning ends. It fails only on a literal or comment that
the text does not close.
-/

namespace CellBindings

/-- What a text may leave open at its end. -/
inductive Construct where
  | string | char | comment
  deriving DecidableEq, Repr

/-- A construct without its end, and the offset where it starts. -/
structure Unterminated where
  construct : Construct
  start : Nat
  deriving DecidableEq, Repr

def Construct.describe : Construct → String
  | .string => "string literal"
  | .char => "character literal"
  | .comment => "block comment"

def Unterminated.message (e : Unterminated) : String :=
  s!"unterminated {e.construct.describe} starting at byte {e.start}"

inductive FrameKind where
  | paren | square | curly | block
  /-- A parenthesis after an interpolation mark inside a string. -/
  | interpolation
  | string (delimiter : Delimiter) (start : Nat)
  deriving DecidableEq, Repr

structure Frame where
  kind : FrameKind
  /-- Question marks at this level that still wait for their colon. -/
  pendingTernary : Nat
  deriving DecidableEq, Repr

structure Scanner where
  offset : Nat
  /-- Tokens so far, the latest first. -/
  emitted : List Token
  /-- Open frames, the innermost first. -/
  frames : List Frame
  /-- Pending question marks outside all frames. -/
  rootTernary : Nat
  /-- A gap stands before the next token. -/
  spaced : Bool
  /-- The next name is a keyword if it is `type`. -/
  typeNext : Bool
  deriving DecidableEq, Repr

namespace Scanner

def initial : Scanner := ⟨0, [], [], 0, true, false⟩

def emit (s : Scanner) (kind : Token.Kind) (lexeme : Text) : Scanner :=
  let stop := s.offset + Text.byteSize lexeme
  { s with
    offset := stop
    emitted := ⟨kind, lexeme, ⟨s.offset, stop⟩, s.spaced⟩ :: s.emitted
    spaced := false }

def skip (s : Scanner) (gap : Text) : Scanner :=
  { s with offset := s.offset + Text.byteSize gap, spaced := true }

def enter (s : Scanner) (kind : FrameKind) : Scanner :=
  { s with frames := ⟨kind, 0⟩ :: s.frames }

def lastEndsValue (s : Scanner) : Bool := s.emitted.head?.any Token.endsValue

def pendingTernary (s : Scanner) : Nat :=
  match s.frames with
  | [] => s.rootTernary
  | frame :: _ => frame.pendingTernary

def setTernary (s : Scanner) (count : Nat) : Scanner :=
  match s.frames with
  | [] => { s with rootTernary := count }
  | frame :: rest => { s with frames := { frame with pendingTernary := count } :: rest }

/-- Outside all frames or directly inside a block, where line breaks count. -/
def atStatementLevel (s : Scanner) : Bool :=
  match s.frames with
  | [] => true
  | frame :: _ => frame.kind == .block

/-- A line break is a token only if it can end a statement, and never twice in a row. -/
def lineBreak (s : Scanner) : Scanner :=
  if s.atStatementLevel then
    let s := s.setTernary 0
    if s.emitted.head?.any fun t => t.kind != .newline && !t.continuesLine then
      { s.emit .newline ['\n'] with spaced := true }
    else s.skip ['\n']
  else s.skip ['\n']

/-- A comment from its number sign on. -/
def comment (s : Scanner) (cs : Text) : Except Unterminated (Scanner × Text) :=
  match cs with
  | '=' :: inside =>
    match Text.cutComment 0 inside with
    | none => .error ⟨.comment, s.offset⟩
    | some (front, back) => .ok (s.skip ('#' :: '=' :: front), back)
  | _ => .ok (s.skip ('#' :: cs.takeWhile (· != '\n')), cs.dropWhile (· != '\n'))

/-- The frames left when a bracket closes the innermost frame of its kind. An interpolation or a
string shields the frames outside it. -/
def closeBracket (kind : FrameKind) : List Frame → Option (List Frame)
  | [] => none
  | frame :: rest =>
    if frame.kind = kind ∨ (kind = .paren ∧ frame.kind = .interpolation) then some rest
    else
      match frame.kind with
      | .interpolation | .string _ _ => none
      | _ => closeBracket kind rest

def leave (s : Scanner) (kind : FrameKind) : Scanner :=
  { s with frames := (closeBracket kind s.frames).getD s.frames }

/-- Inside an indexing bracket, with only round and curly brackets between. -/
def inIndex : List Frame → Bool
  | [] => false
  | frame :: rest =>
    match frame.kind with
    | .square => true
    | .paren | .curly => inIndex rest
    | _ => false

/-- The frames left when `end` closes the innermost block, if there is one to close. -/
def closeBlock : List Frame → Option (List Frame)
  | [] => none
  | frame :: rest =>
    match frame.kind with
    | .block => some rest
    | .paren | .curly => closeBlock rest
    | _ => none

/-- Opens a string. Its frame remembers where the string, marker included, starts. -/
def openString (s : Scanner) (marker : Text) (delimiter : Delimiter) : Scanner :=
  (s.emit .stringStart (marker ++ delimiter.text)).enter (.string delimiter s.offset)

def quote (s : Scanner) (cs : Text) : Except Unterminated (Scanner × Text) :=
  if !s.spaced && s.lastEndsValue then .ok (s.emit .operator ['\x27'], cs)
  else
    match Text.cutChar cs with
    | none => .error ⟨.char, s.offset⟩
    | some (front, back) => .ok (s.emit .char ('\x27' :: front), back)

def atSign (s : Scanner) (cs : Text) : Scanner × Text :=
  match cs with
  | '.' :: rest => (s.emit .macroName ['@', '.'], rest)
  | c :: rest =>
    if isNameStart c then
      let (name, rest) := Text.cutName rest
      (s.emit .macroName ('@' :: c :: name), rest)
    else (s.emit .operator ['@'], cs)
  | [] => (s.emit .operator ['@'], cs)

def number (s : Scanner) (c : Char) (cs : Text) : Scanner × Text :=
  let (float, digits, rest) := Text.cutNumber c cs
  (s.emit (if float then .float else .integer) (c :: digits), rest)

/-- A string without interpolation: at most one chunk, and flags after its end. -/
def opaqueString (s : Scanner) (marker : Text) (text : Text) :
    Except Unterminated (Scanner × Text) :=
  let close := (Delimiter.ofQuotes text).text
  match Text.cutOpaque close (text.drop close.length) with
  | none => .error ⟨.string, s.offset⟩
  | some (inside, back) =>
    let afterClose := back.drop close.length
    let s := s.emit .stringStart (marker ++ close)
    let s := if inside.isEmpty then s else s.emit .stringChunk inside
    .ok (s.emit .stringEnd (close ++ afterClose.takeWhile Char.isAlpha),
      afterClose.dropWhile Char.isAlpha)

/-- Behind a value inside brackets, `for` and `if` belong to a generator and open no block. -/
def opensBlock (s : Scanner) (keyword : Keyword) : Bool :=
  keyword.opensBlock ||
    ((keyword == .forKw || keyword == .ifKw) && (s.atStatementLevel || !s.lastEndsValue))

/-- A word that is no string marker. -/
def word (s : Scanner) (name rest : Text) : Scanner :=
  let typeNext := s.typeNext
  let s := { s with typeNext := false }
  if typeNext && name == ['t', 'y', 'p', 'e'] then s.emit (.keyword .typeKw) name
  else if name == ['a', 'b', 's', 't', 'r', 'a', 'c', 't'] &&
      Text.followedBy ['t', 'y', 'p', 'e'] rest then
    { (s.emit (.keyword .abstractKw) name).enter .block with typeNext := true }
  else if name == ['p', 'r', 'i', 'm', 'i', 't', 'i', 'v', 'e'] &&
      Text.followedBy ['t', 'y', 'p', 'e'] rest then
    { (s.emit (.keyword .primitiveKw) name).enter .block with typeNext := true }
  else if name == ['m', 'u', 't', 'a', 'b', 'l', 'e'] &&
      Text.followedBy ['s', 't', 'r', 'u', 'c', 't'] rest then
    s.emit (.keyword .mutableKw) name
  else
    match Keyword.ofName? name with
    | none => s.emit .identifier name
    | some .beginKw =>
      if inIndex s.frames then s.emit .indexKeyword name
      else (s.emit (.keyword .beginKw) name).enter .block
    | some .endKw =>
      if inIndex s.frames then s.emit .indexKeyword name
      else
        { s.emit (.keyword .endKw) name with frames := (closeBlock s.frames).getD s.frames }
    | some keyword =>
      let opened := s.emit (.keyword keyword) name
      if s.opensBlock keyword then opened.enter .block else opened

/-- A name, directly before a double quote the marker of a string. -/
def name (s : Scanner) (c : Char) (cs : Text) : Except Unterminated (Scanner × Text) :=
  let (tail, rest) := Text.cutName cs
  let name := c :: tail
  if rest.head? == some '\x22' then
    if name == ['m', 'd'] then
      let delimiter := Delimiter.ofQuotes rest
      .ok (s.openString name delimiter, rest.drop delimiter.text.length)
    else s.opaqueString name rest
  else .ok (s.word name rest, rest)

def operator (s : Scanner) (c : Char) (cs : Text) : Scanner × Text :=
  match (Text.dottedOperator? (c :: cs)).or (Text.operator? (c :: cs)) with
  | none => (s.emit .unknown [c], cs)
  | some op =>
    let rest := cs.drop (op.length - 1)
    if op == ['?'] && s.spaced then
      ((s.setTernary (s.pendingTernary + 1)).emit .operator op, rest)
    else if op == [':'] && s.spaced && 0 < s.pendingTernary &&
        rest.head?.any (fun c => c == ' ' || c == '\t' || c == '\n') then
      ((s.setTernary (s.pendingTernary - 1)).emit .ternaryColon op, rest)
    else (s.emit .operator op, rest)

/-- A point starts a number if a digit follows, unless it stands right behind a value. -/
def startsFraction (s : Scanner) (cs : Text) : Bool :=
  cs.head?.any Char.isDigit && (s.spaced || !s.lastEndsValue)

def codeStep (s : Scanner) (c : Char) (cs : Text) : Except Unterminated (Scanner × Text) :=
  match c with
  | '\n' => .ok (s.lineBreak, cs)
  | '#' => s.comment cs
  | ',' => .ok (s.emit .punctuation [','], cs)
  | ';' => .ok (s.emit .punctuation [';'], cs)
  | '(' => .ok ((s.emit .punctuation ['(']).enter .paren, cs)
  | '[' => .ok ((s.emit .punctuation ['[']).enter .square, cs)
  | '{' => .ok ((s.emit .punctuation ['{']).enter .curly, cs)
  | ')' => .ok ((s.emit .punctuation [')']).leave .paren, cs)
  | ']' => .ok ((s.emit .punctuation [']']).leave .square, cs)
  | '}' => .ok ((s.emit .punctuation ['}']).leave .curly, cs)
  | '\x22' =>
    let delimiter := Delimiter.ofQuotes ('\x22' :: cs)
    .ok (s.openString [] delimiter, cs.drop (delimiter.text.length - 1))
  | '\x60' =>
    let delimiter := Delimiter.ofBackticks ('\x60' :: cs)
    .ok (s.openString [] delimiter, cs.drop (delimiter.text.length - 1))
  | '\x27' => s.quote cs
  | '@' => .ok (s.atSign cs)
  | _ =>
    if isBlank c then .ok (s.skip [c], cs)
    else if c.isDigit || (c == '.' && s.startsFraction cs) then .ok (s.number c cs)
    else if isNameStart c then s.name c cs
    else .ok (s.operator c cs)

/-- Inside a string: its end, an interpolation, or a chunk of literal text. A dollar sign that
starts no interpolation is literal. -/
def stringStep (s : Scanner) (delimiter : Delimiter) (c : Char) (cs : Text) : Scanner × Text :=
  let close := delimiter.text
  if close.isPrefixOf (c :: cs) then
    ({ s.emit .stringEnd close with frames := s.frames.tail }, cs.drop (close.length - 1))
  else if c = '$' then
    match cs with
    | '(' :: rest =>
      (((s.emit .operator ['$']).emit .punctuation ['(']).enter .interpolation, rest)
    | d :: rest =>
      if isNameStart d then
        let (name, rest) := Text.cutName rest
        ((s.emit .operator ['$']).emit .identifier (d :: name), rest)
      else
        let (chunk, rest) := Text.cutChunk close cs
        (s.emit .stringChunk (c :: chunk), rest)
    | [] => (s.emit .stringChunk [c], [])
  else if c = '\\' then
    match cs with
    | d :: rest =>
      let (chunk, rest) := Text.cutChunk close rest
      (s.emit .stringChunk (c :: d :: chunk), rest)
    | [] => (s.emit .stringChunk [c], [])
  else
    let (chunk, rest) := Text.cutChunk close cs
    (s.emit .stringChunk (c :: chunk), rest)

def step (s : Scanner) (c : Char) (cs : Text) : Except Unterminated (Scanner × Text) :=
  match s.frames with
  | ⟨.string delimiter _, _⟩ :: _ => .ok (s.stringStep delimiter c cs)
  | _ => s.codeStep c cs

/-- The string left open at the end of the text: the innermost if the text ends in it, else, when
it ends in an interpolation, the outermost. -/
def openAtEnd (s : Scanner) : Option Unterminated :=
  match s.frames with
  | ⟨.string _ start, _⟩ :: _ => some ⟨.string, start⟩
  | frames =>
    frames.reverse.findSome? fun frame =>
      match frame.kind with
      | .string _ start => some ⟨.string, start⟩
      | _ => none

theorem comment_length {s t : Scanner} {cs rest : Text} (h : s.comment cs = .ok (t, rest)) :
    rest.length ≤ cs.length := by
  unfold comment at h
  split at h
  · split at h
    · simp at h
    · rename_i front back cut
      have same := congrArg List.length (Text.cutComment_append cut)
      simp only [Except.ok.injEq, Prod.mk.injEq] at h
      simp only [List.length_append, List.length_cons, ← h.2] at same ⊢
      omega
  · simp only [Except.ok.injEq, Prod.mk.injEq] at h
    rw [← h.2]
    exact (List.dropWhile_suffix _).length_le

theorem quote_length {s t : Scanner} {cs rest : Text} (h : s.quote cs = .ok (t, rest)) :
    rest.length ≤ cs.length := by
  unfold quote at h
  split at h
  · simp only [Except.ok.injEq, Prod.mk.injEq] at h
    simp [← h.2]
  · split at h
    · simp at h
    · rename_i front back cut
      have same := congrArg List.length (Text.cutChar_append cut)
      simp only [Except.ok.injEq, Prod.mk.injEq] at h
      simp only [List.length_append, ← h.2] at same ⊢
      omega

theorem cutName_length (cs : Text) : (Text.cutName cs).2.length ≤ cs.length := by
  have same := congrArg List.length (Text.cutName_append cs)
  simp only [List.length_append] at same
  omega

theorem cutChunk_length (close cs : Text) : (Text.cutChunk close cs).2.length ≤ cs.length := by
  have same := congrArg List.length (Text.cutChunk_append close cs)
  simp only [List.length_append] at same
  omega

theorem atSign_length (s : Scanner) (cs : Text) : (s.atSign cs).2.length ≤ cs.length := by
  unfold atSign
  split
  · simp
  · rename_i c rest _
    split
    · have := cutName_length rest
      simp only [List.length_cons]
      omega
    · simp
  · simp

theorem number_length (s : Scanner) (c : Char) (cs : Text) :
    (s.number c cs).2.length ≤ cs.length := by
  have same := congrArg List.length (Text.cutNumber_append c cs)
  rcases cut : Text.cutNumber c cs with ⟨float, digits, rest⟩
  simp only [cut, List.length_append] at same
  simp only [number, cut]
  omega

theorem opaqueString_length {s t : Scanner} {marker text rest : Text}
    (h : s.opaqueString marker text = .ok (t, rest)) : rest.length ≤ text.length := by
  unfold opaqueString at h
  simp only at h
  split at h
  · simp at h
  · rename_i inside back cut
    have same := congrArg List.length (Text.cutOpaque_append cut)
    simp only [Except.ok.injEq, Prod.mk.injEq] at h
    rw [← h.2]
    refine Nat.le_trans (List.dropWhile_suffix _).length_le ?_
    simp only [List.length_append, List.length_drop] at same ⊢
    omega

theorem name_length {s t : Scanner} {c : Char} {cs rest : Text}
    (h : s.name c cs = .ok (t, rest)) : rest.length ≤ cs.length := by
  have shorter := cutName_length cs
  unfold name at h
  simp only at h
  split at h
  · split at h
    · simp only [Except.ok.injEq, Prod.mk.injEq] at h
      simp only [← h.2, List.length_drop]
      omega
    · exact Nat.le_trans (opaqueString_length h) shorter
  · simp only [Except.ok.injEq, Prod.mk.injEq] at h
    rw [← h.2]
    exact shorter

theorem operator_length (s : Scanner) (c : Char) (cs : Text) :
    (s.operator c cs).2.length ≤ cs.length := by
  unfold operator
  split
  · exact Nat.le_refl _
  · simp only
    split
    · simp
    · split <;> simp

theorem codeStep_length {s t : Scanner} {c : Char} {cs rest : Text}
    (h : s.codeStep c cs = .ok (t, rest)) : rest.length ≤ cs.length := by
  unfold codeStep at h
  split at h
  case h_2 => exact comment_length h
  case h_13 => exact quote_length h
  case h_14 =>
    simp only [Except.ok.injEq] at h
    have := atSign_length s cs
    rw [h] at this
    exact this
  case h_15 =>
    split at h
    · simp only [Except.ok.injEq, Prod.mk.injEq] at h
      simp [← h.2]
    · split at h
      · simp only [Except.ok.injEq] at h
        have := number_length s c cs
        rw [h] at this
        exact this
      · split at h
        · exact name_length h
        · simp only [Except.ok.injEq] at h
          have := operator_length s c cs
          rw [h] at this
          exact this
  all_goals
    simp only [Except.ok.injEq, Prod.mk.injEq] at h
    simp [← h.2]

theorem stringStep_length (s : Scanner) (delimiter : Delimiter) (c : Char) (cs : Text) :
    (s.stringStep delimiter c cs).2.length ≤ cs.length := by
  unfold stringStep
  simp only
  split
  · simp
  · split
    · split
      · simp
      · rename_i tail _ _
        split
        · have := cutName_length tail
          simp only [List.length_cons]
          omega
        · exact cutChunk_length _ _
      · simp
    · split
      · split
        · rename_i tail _
          have := cutChunk_length delimiter.text tail
          simp only [List.length_cons]
          omega
        · simp
      · exact cutChunk_length _ _

/-- Each step takes the character it looks at. -/
theorem step_length {s t : Scanner} {c : Char} {cs rest : Text}
    (h : s.step c cs = .ok (t, rest)) : rest.length ≤ cs.length := by
  unfold step at h
  split at h
  · rename_i delimiter _ _ _ _
    simp only [Except.ok.injEq] at h
    have := stringStep_length s delimiter c cs
    rw [h] at this
    exact this
  · exact codeStep_length h

/-- Scans the whole text. The state at a failure is the one before the failing construct. -/
def run (s : Scanner) (text : Text) : Scanner × Option Unterminated :=
  match text with
  | [] => (s, s.openAtEnd)
  | c :: cs =>
    match _h : s.step c cs with
    | .error e => (s, some e)
    | .ok (t, rest) => run t rest
termination_by text.length
decreasing_by exact Nat.lt_succ_of_le (step_length ‹_›)

def tokens (s : Scanner) : List Token := s.emitted.reverse

end Scanner

/-- The tokens of a text, or the construct that it leaves open. -/
def tokenize (text : Text) : Except Unterminated (List Token) :=
  match Scanner.initial.run text with
  | (s, none) => .ok s.tokens
  | (_, some e) => .error e

/-- The tokens of a text. What is left open becomes one error token up to the end of the text, in
place of all tokens from its start on. -/
def tokenizeRecovering (text : Text) : List Token :=
  match Scanner.initial.run text with
  | (s, none) => s.tokens
  | (s, some e) =>
    let (before, rest) := (Text.splitAt? text e.start).getD (text, [])
    s.tokens.filter (·.span.start < e.start) ++
      [⟨.error, rest, ⟨e.start, Text.byteSize text⟩, before.getLast?.any isBlank⟩]

end CellBindings
