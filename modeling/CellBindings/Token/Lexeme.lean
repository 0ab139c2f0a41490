import CellBindings.Token.Spelling

/-!
Lexemes: where comments, characters, numbers and strings end. Each rule cuts a text in two, what it
takes and what it leaves, and the two parts always make up the text again.
-/

namespace CellBindings

/-- Delimiters of strings and commands. -/
inductive Delimiter where
  | quote | tripleQuote | backtick | tripleBacktick
  deriving DecidableEq, Repr

namespace Delimiter

def text : Delimiter → Text
  | .quote => ['\x22']
  | .tripleQuote => ['\x22', '\x22', '\x22']
  | .backtick => ['\x60']
  | .tripleBacktick => ['\x60', '\x60', '\x60']

/-- The delimiter that a text starting with a double quote opens with. -/
def ofQuotes (text : Text) : Delimiter :=
  if Delimiter.tripleQuote.text.isPrefixOf text then .tripleQuote else .quote

/-- The delimiter that a text starting with a backtick opens with. -/
def ofBackticks (text : Text) : Delimiter :=
  if Delimiter.tripleBacktick.text.isPrefixOf text then .tripleBacktick else .backtick

end Delimiter

namespace Text

/-- The inside of a block comment, with its end. Comments nest: `depth` is how many more are open. -/
def cutComment : Nat → Text → Option (Text × Text)
  | _, [] => none
  | depth, '#' :: '=' :: cs =>
    (cutComment (depth + 1) cs).map fun (front, back) => ('#' :: '=' :: front, back)
  | 0, '=' :: '#' :: cs => some (['=', '#'], cs)
  | depth + 1, '=' :: '#' :: cs =>
    (cutComment depth cs).map fun (front, back) => ('=' :: '#' :: front, back)
  | depth, c :: cs => (cutComment depth cs).map fun (front, back) => (c :: front, back)

/-- Up to the next quote, which has to stand on the same line. -/
def cutToQuote : Text → Option (Text × Text)
  | [] => none
  | c :: cs =>
    if c = '\n' then none
    else if c = '\x27' then some ([c], cs)
    else (cutToQuote cs).map fun (front, back) => (c :: front, back)

/-- The inside of a character literal, with its closing quote. The first character is taken whatever
it is, so that a quote can be quoted. -/
def cutChar : Text → Option (Text × Text)
  | '\\' :: c :: cs =>
    if c = '\n' then none
    else (cutToQuote cs).map fun (front, back) => ('\\' :: c :: front, back)
  | c :: cs =>
    if c = '\n' || c = '\\' then none
    else (cutToQuote cs).map fun (front, back) => (c :: front, back)
  | [] => none

def isDigitMark (c : Char) : Bool := c.isDigit || c == '_'

def isHexDigit (c : Char) : Bool :=
  c.isDigit || ('a' ≤ c && c ≤ 'f') || ('A' ≤ c && c ≤ 'F')

/-- A point with at least one digit after it. -/
def cutFraction : Text → Text × Text
  | '.' :: d :: cs =>
    if d.isDigit then ('.' :: d :: cs.takeWhile isDigitMark, cs.dropWhile isDigitMark)
    else ([], '.' :: d :: cs)
  | text => ([], text)

/-- An exponent mark, a sign if any, and at least one digit. -/
def cutExponent : Text → Text × Text
  | [] => ([], [])
  | e :: cs =>
    if e == 'e' || e == 'E' || e == 'f' then
      match cs with
      | s :: d :: rest =>
        if (s == '+' || s == '-') && d.isDigit then
          (e :: s :: d :: rest.takeWhile isDigitMark, rest.dropWhile isDigitMark)
        else if s.isDigit then
          (e :: s :: (d :: rest).takeWhile isDigitMark, (d :: rest).dropWhile isDigitMark)
        else ([], e :: cs)
      | [d] => if d.isDigit then ([e, d], []) else ([], e :: cs)
      | [] => ([], e :: cs)
    else ([], e :: cs)

/-- The digits of a number in base two, eight or sixteen, from its base letter on. -/
def cutRadix? : Text → Option (Text × Text)
  | b :: d :: cs =>
    if (b == 'x' || b == 'b' || b == 'o') && isHexDigit d then
      let digit := fun c => isHexDigit c || c == '_'
      some (b :: d :: cs.takeWhile digit, cs.dropWhile digit)
    else none
  | _ => none

/-- The number whose first character, a digit or a point, stands before the text: whether it is a
floating point number, what it takes after that character, and what it leaves. -/
def cutNumber (first : Char) (text : Text) : Bool × Text × Text :=
  match if first == '0' then cutRadix? text else none with
  | some (digits, rest) => (false, digits, rest)
  | none =>
    let whole := text.takeWhile isDigitMark
    let afterWhole := text.dropWhile isDigitMark
    let (fraction, afterFraction) := if first == '.' then ([], afterWhole) else cutFraction afterWhole
    let (exponent, rest) := cutExponent afterFraction
    (first == '.' || !fraction.isEmpty || !exponent.isEmpty, whole ++ (fraction ++ exponent), rest)

/-- Literal text of a string up to an interpolation mark, the closing delimiter or the end. A
backslash takes the next character along. -/
def cutChunk (close : Text) : Text → Text × Text
  | '\\' :: c :: cs =>
    let (front, back) := cutChunk close cs
    ('\\' :: c :: front, back)
  | c :: cs =>
    if c == '$' || close.isPrefixOf (c :: cs) then ([], c :: cs)
    else
      let (front, back) := cutChunk close cs
      (c :: front, back)
  | [] => ([], [])

/-- The inside of a string without interpolation, up to its closing delimiter. -/
def cutOpaque (close : Text) : Text → Option (Text × Text)
  | '\\' :: c :: cs => (cutOpaque close cs).map fun (front, back) => ('\\' :: c :: front, back)
  | c :: cs =>
    if c == '\\' then none
    else if close.isPrefixOf (c :: cs) then some ([], c :: cs)
    else (cutOpaque close cs).map fun (front, back) => (c :: front, back)
  | [] => none

theorem cutComment_append {depth : Nat} {text front back : Text}
    (h : cutComment depth text = some (front, back)) : front ++ back = text := by
  induction depth, text using cutComment.induct generalizing front back with
  | case1 => simp [cutComment] at h
  | case2 depth cs ih =>
    simp only [cutComment, Option.map_eq_some_iff, Prod.exists, Prod.mk.injEq] at h
    obtain ⟨f, b, hs, rfl, rfl⟩ := h
    simp [ih hs]
  | case3 cs =>
    simp only [cutComment, Option.some.injEq, Prod.mk.injEq] at h
    simp [← h.1, ← h.2]
  | case4 depth cs ih =>
    simp only [cutComment, Option.map_eq_some_iff, Prod.exists, Prod.mk.injEq] at h
    obtain ⟨f, b, hs, rfl, rfl⟩ := h
    simp [ih hs]
  | case5 depth c cs h1 h2 h3 ih =>
    rw [cutComment] at h
    · simp only [Option.map_eq_some_iff, Prod.exists, Prod.mk.injEq] at h
      obtain ⟨f, b, hs, rfl, rfl⟩ := h
      simp [ih hs]
    all_goals assumption

theorem cutToQuote_append {text front back : Text}
    (h : cutToQuote text = some (front, back)) : front ++ back = text := by
  induction text generalizing front back with
  | nil => simp [cutToQuote] at h
  | cons c cs ih =>
    simp only [cutToQuote] at h
    split at h
    · simp at h
    · split at h
      · simp only [Option.some.injEq, Prod.mk.injEq] at h
        simp [← h.1, ← h.2]
      · simp only [Option.map_eq_some_iff, Prod.exists, Prod.mk.injEq] at h
        obtain ⟨f, b, hs, rfl, rfl⟩ := h
        simp [ih hs]

theorem cutChar_append {text front back : Text}
    (h : cutChar text = some (front, back)) : front ++ back = text := by
  unfold cutChar at h
  split at h
  · split at h
    · simp at h
    · simp only [Option.map_eq_some_iff, Prod.exists, Prod.mk.injEq] at h
      obtain ⟨f, b, hs, rfl, rfl⟩ := h
      simp [cutToQuote_append hs]
  · split at h
    · simp at h
    · simp only [Option.map_eq_some_iff, Prod.exists, Prod.mk.injEq] at h
      obtain ⟨f, b, hs, rfl, rfl⟩ := h
      simp [cutToQuote_append hs]
  · simp at h

theorem cutFraction_append (text : Text) : (cutFraction text).1 ++ (cutFraction text).2 = text := by
  unfold cutFraction
  split
  · split <;> simp
  · rfl

theorem cutExponent_append (text : Text) : (cutExponent text).1 ++ (cutExponent text).2 = text := by
  unfold cutExponent
  split
  · rfl
  · split
    · split
      · split
        · simp
        · split
          · simp
          · rfl
      · split <;> simp
      · rfl
    · rfl

theorem cutRadix?_append {text front back : Text}
    (h : cutRadix? text = some (front, back)) : front ++ back = text := by
  unfold cutRadix? at h
  split at h
  · split at h
    · simp only [Option.some.injEq, Prod.mk.injEq] at h
      simp [← h.1, ← h.2]
    · simp at h
  · simp at h

theorem cutNumber_append (first : Char) (text : Text) :
    (cutNumber first text).2.1 ++ (cutNumber first text).2.2 = text := by
  unfold cutNumber
  split
  · rename_i digits rest h
    split at h
    · exact cutRadix?_append h
    · simp at h
  · split
    · simp [cutExponent_append]
    · simp only [List.append_assoc, cutExponent_append, cutFraction_append,
        List.takeWhile_append_dropWhile]

theorem cutChunk_append (close text : Text) :
    (cutChunk close text).1 ++ (cutChunk close text).2 = text := by
  induction text using cutChunk.induct close with
  | case1 c cs _ _ _ ih => simpa [cutChunk] using ih
  | case2 c cs h1 stop =>
    rw [cutChunk]
    · simp [stop]
    · assumption
  | case3 c cs h1 go _ _ _ ih =>
    rw [cutChunk]
    · simpa [go] using ih
    · assumption
  | case4 => rfl

theorem cutOpaque_append {close text front back : Text}
    (h : cutOpaque close text = some (front, back)) : front ++ back = text := by
  induction text using cutOpaque.induct close generalizing front back with
  | case1 c cs ih =>
    simp only [cutOpaque, Option.map_eq_some_iff, Prod.exists, Prod.mk.injEq] at h
    obtain ⟨f, b, hs, rfl, rfl⟩ := h
    simp [ih hs]
  | case2 c cs h1 stop =>
    rw [cutOpaque] at h
    · simp [stop] at h
    · assumption
  | case3 c cs h1 go found =>
    rw [cutOpaque] at h
    · simp only [go, found] at h
      simp at h
      simp [← h.1, ← h.2]
    · assumption
  | case4 c cs h1 go found ih =>
    rw [cutOpaque] at h
    · simp only [go, found] at h
      simp only [Bool.false_eq_true, if_false, Option.map_eq_some_iff, Prod.exists,
        Prod.mk.injEq] at h
      obtain ⟨f, b, hs, rfl, rfl⟩ := h
      simp [ih hs]
    · assumption
  | case5 => simp [cutOpaque] at h

end Text

end CellBindings
