import CellBindings.Proofs.LineOffsets
import CellBindings.Proofs.TokenPlaces
import CellBindings.Snippet

/-!
The window of a snippet. Where a line starts is counted over the lines before it, and the index of
line starts has the same, also behind the last line. So the window around a character is made of
whole lines: it can be cut out of the text, and the character lies inside it. What a text leaves
open starts at a character, hence the one byte that is highlighted there is in the window.
-/

namespace CellBindings

namespace Text

def linesBetween (text : Text) (first last : Nat) : Text :=
  ((text.lines.take last).drop (first - 1)).flatten

/-- A line starts behind all lines before it. -/
theorem lineOffset_eq (text : Text) (n : Nat) :
    text.lineOffset n = byteSize (text.lines.take (n - 1)).flatten := by
  fun_induction lineOffset text n with
  | case1 => rfl
  | case2 => rfl
  | case3 n => simp [lines]
  | case4 c cs n ih =>
    rw [ih, lines]
    by_cases newline : c = '\n'
    · simp [newline]
    · rw [if_neg newline, if_neg newline]
      cases lines cs with
      | nil => simp
      | cons line rest => simp

theorem lineOffset_mono (text : Text) {m n : Nat} (order : m ≤ n) :
    text.lineOffset m ≤ text.lineOffset n := by
  obtain ⟨more, split⟩ : ∃ more, n - 1 = m - 1 + more := ⟨n - 1 - (m - 1), by omega⟩
  rw [lineOffset_eq, lineOffset_eq, split, List.take_add, List.flatten_append, byteSize_append]
  omega

/-- Some lines stand between those before them and those behind them. -/
theorem eq_append_linesBetween (text : Text) {first last : Nat} (order : first ≤ last + 1) :
    text = (text.lines.take (first - 1)).flatten ++
      (text.linesBetween first last ++ (text.lines.drop last).flatten) := by
  have before : text.lines.take (first - 1) = (text.lines.take last).take (first - 1) := by
    rw [List.take_take]
    congr 1
    omega
  rw [linesBetween, before, ← List.append_assoc, ← List.flatten_append, List.take_append_drop,
    ← List.flatten_append, List.take_append_drop, flatten_lines]

/-- Lines reach from the start of the first to the start of the one behind the last. -/
theorem lineOffset_linesBetween (text : Text) {first last : Nat} (order : first ≤ last + 1) :
    text.lineOffset first + (text.linesBetween first last).byteSize =
      text.lineOffset (last + 1) := by
  have whole := congrArg byteSize (text.eq_append_linesBetween order)
  have lines := congrArg byteSize (congrArg List.flatten (List.take_append_drop last text.lines))
  rw [flatten_lines, List.flatten_append] at lines
  simp only [byteSize_append] at whole lines
  rw [lineOffset_eq, lineOffset_eq, Nat.add_sub_cancel]
  omega

/-- The first lines of a text have a break each, unless the text has fewer. -/
theorem count_take_lines (text : Text) (n : Nat) :
    (text.lines.take n).flatten.count '\n' = min n (text.count '\n') := by
  induction text generalizing n with
  | nil => simp [lines]
  | cons c cs ih =>
    cases n with
    | zero => simp
    | succ n =>
      rw [lines]
      by_cases newline : c = '\n'
      · simp [newline, ih]
      · have rest := ih (n + 1)
        rw [if_neg newline]
        cases whole : lines cs with
        | nil =>
          rw [whole] at rest
          simpa [newline] using rest
        | cons line later =>
          rw [whole] at rest
          simpa [newline] using rest

/-- A character stands between the start of its line and the start of the next. -/
theorem between_lineOffsets (front : Text) (c : Char) (back : Text) :
    (front ++ c :: back).lineOffset (front.count '\n' + 1) ≤ front.byteSize ∧
      front.byteSize < (front ++ c :: back).lineOffset (front.count '\n' + 2) := by
  induction front with
  | nil =>
    have := c.utf8Size_pos
    simp [lineOffset]
    omega
  | cons d ds ih =>
    by_cases newline : d = '\n'
    · subst newline
      simpa [lineOffset] using ih
    · obtain ⟨begun, next⟩ := ih
      have same : (d :: ds).count '\n' = ds.count '\n' := by simp [newline]
      rw [same, List.cons_append, byteSize_cons]
      constructor
      · cases breaks : ds.count '\n' with
        | zero => simp [lineOffset]
        | succ k =>
          rw [breaks] at begun
          rw [lineOffset, if_neg newline]
          exact Nat.add_le_add_left begun _
      · rw [lineOffset, if_neg newline]
        exact Nat.add_lt_add_left next _

theorem exists_line (front : Text) (c : Char) (back : Text) :
    ∃ line, (front ++ c :: back).lines[front.count '\n']? = some line := by
  have := between_lineOffsets front c back
  have inside : front.count '\n' < (front ++ c :: back).lines.length := by
    apply Nat.lt_of_not_le
    intro beyond
    have same := List.take_of_length_le beyond
    have same' := List.take_of_length_le (Nat.le_succ_of_le beyond)
    have next : front.count '\n' + 2 - 1 = (front.count '\n').succ := rfl
    simp only [lineOffset_eq, Nat.add_sub_cancel] at this
    rw [next, same, same'] at this
    omega
  exact ⟨_, List.getElem?_eq_getElem inside⟩

/-- A character whose offset lies in a piece of a text stands in the piece. -/
theorem cut_inside {before shown after front back : Text} {c : Char}
    (same : before ++ (shown ++ after) = front ++ c :: back)
    (above : before.byteSize ≤ front.byteSize)
    (below : front.byteSize < before.byteSize + shown.byteSize) :
    ∃ mid rest, front = before ++ mid ∧ shown = mid ++ c :: rest := by
  obtain ⟨mid, rfl⟩ := cut_of_cuts same above
  have inner : mid ++ c :: back = shown ++ after := by
    apply List.append_cancel_left
    rw [← List.append_assoc]
    exact same.symm
  rw [byteSize_append] at below
  obtain ⟨tail, rfl⟩ := cut_of_cuts inner (by omega)
  cases tail with
  | nil =>
    rw [List.append_nil] at below
    omega
  | cons d rest =>
    rw [List.append_assoc, List.append_cancel_left_eq] at inner
    obtain ⟨rfl, -⟩ := List.cons.inj inner
    exact ⟨mid, rest, rfl, rfl⟩

end Text

namespace LineIndex

/-- The index has the same line starts behind the first, and none where counting ends. -/
theorem getD_breaks (offset : Nat) (text : Text) (n : Nat) :
    ((breaks offset text)[n]?).getD (offset + text.byteSize) =
      offset + text.lineOffset (n + 2) := by
  induction text generalizing offset n with
  | nil => rfl
  | cons c cs ih =>
    rw [breaks, Text.lineOffset, Text.byteSize_cons, ← Nat.add_assoc, ← Nat.add_assoc]
    by_cases newline : c = '\n'
    · rw [if_pos newline, if_pos newline]
      cases n with
      | zero => simp [Text.lineOffset]
      | succ n => exact ih (offset + c.utf8Size) n
    · rw [if_neg newline, if_neg newline]
      exact ih (offset + c.utf8Size) n

theorem lineOffset_eq_lineStart? (text : Text) (n : Nat) :
    text.lineOffset n = ((ofText text).lineStart? n).getD text.byteSize := by
  rcases n with _ | _ | n
  · simp [Text.lineOffset, lineStart?, ofText]
  · simp [Text.lineOffset, lineStart?, ofText]
  · have counted := getD_breaks 0 text n
    rw [Nat.zero_add, Nat.zero_add] at counted
    exact counted.symm

/-- A line of the index starts where it is counted to, and counting to any other ends with the
text. -/
theorem lineStart?_or_end (text : Text) (n : Nat) :
    (ofText text).lineStart? n = some (text.lineOffset n) ∨
      (ofText text).lineCount < n ∧ text.lineOffset n = text.byteSize := by
  rw [lineOffset_eq_lineStart?]
  cases found : (ofText text).lineStart? n with
  | some start => exact .inl rfl
  | none =>
    have beyond := List.getElem?_eq_none_iff.mp found
    have first : 0 < (ofText text).starts.length := Nat.succ_pos _
    refine .inr ⟨?_, rfl⟩
    rw [lineCount]
    omega

end LineIndex

/-- The line of a cut starts where the last line of the part before it does. -/
theorem Text.lineOffset_endLine (front back : Text) :
    (front ++ back).lineOffset front.endLine + front.lastLine.byteSize = front.byteSize := by
  obtain ⟨before, rest, after, split, row⟩ := Text.exists_rowAt_cut front back
  have size := congrArg Text.byteSize split
  have line : front.endLine = before.count '\n' + 1 := by
    have counted := @Text.endLine_append before _ front.not_mem_lastLine
    rwa [← split] at counted
  have start := LineIndex.lineStart?_of_row row (@Nat.add_sub_cancel (before.count '\n') 1).symm
  rw [line, LineIndex.lineOffset_eq_lineStart?, start, Option.getD_some, size, Text.byteSize_append]

/-- What a text leaves open starts at one of its characters. -/
theorem tokenize_error_cut {text : Text} {e : Unterminated} (failed : tokenize text = .error e) :
    ∃ front c back, text = front ++ c :: back ∧ Text.byteSize front = e.start := by
  obtain ⟨after, placed, opens⟩ := run_placed (Placed.initial text)
  unfold tokenize at failed
  generalize Scanner.initial.run text = result at placed opens failed
  obtain ⟨s, failure⟩ := result
  cases failure with
  | none => cases failed
  | some e =>
    cases failed
    obtain ⟨front, back, split, size, more, -⟩ := placed.opening (opens e rfl)
    obtain ⟨c, rest, rfl⟩ := List.exists_cons_of_ne_nil more
    exact ⟨front, c, rest, split, size⟩

/-- A window around a character: what comes before the window, what it shows before and behind the
character, and what comes behind the window. -/
structure Window.Around (window : Window) (text before mid : Text) (c : Char) (rest after : Text) :
    Prop where
  split : text = before ++ ((mid ++ c :: rest) ++ after)
  number : window.firstLine = before.count '\n' + 1
  begins : text.lineOffset (before.count '\n' + 1) = before.byteSize
  start : window.span.start = before.byteSize
  stop : window.span.stop = before.byteSize + (mid ++ c :: rest).byteSize

namespace Window.Around

variable {window : Window} {text before mid rest after : Text} {c : Char}

theorem slice (h : window.Around text before mid c rest after) :
    text.slice? window.span = some (mid ++ c :: rest) := by
  have span : window.span = ⟨before.byteSize, before.byteSize + (mid ++ c :: rest).byteSize⟩ := by
    rw [← h.stop, ← h.start]
  rw [span, h.split]
  exact Text.slice?_append before (mid ++ c :: rest) after

theorem source (h : window.Around text before mid c rest after) :
    window.source text = mid ++ c :: rest := by
  rw [Window.source, h.slice, Option.getD_some]

theorem place (h : window.Around text before mid c rest after) :
    (before ++ mid).byteSize - window.span.start = mid.byteSize := by
  rw [h.start, Text.byteSize_append, Nat.add_sub_cancel_left]

theorem inside (h : window.Around text before mid c rest after) :
    window.span.start ≤ (before ++ mid).byteSize ∧ (before ++ mid).byteSize < window.span.stop := by
  have := c.utf8Size_pos
  rw [h.start, h.stop]
  simp only [Text.byteSize_append, Text.byteSize_cons]
  omega

/-- The window starts with a line, so what stands before it does not reach into a line shown. -/
theorem lastLine (h : window.Around text before mid c rest after) :
    (before ++ mid).lastLine = mid.lastLine := by
  have start := Text.lineOffset_endLine before ((mid ++ c :: rest) ++ after)
  have := before.lastLine.length_le_byteSize
  have begins := h.begins
  rw [← h.split, Text.endLine, Nat.add_comm 1, begins] at start
  have ended : before.lastLine = [] := List.eq_nil_of_length_eq_zero (by omega)
  exact Text.lastLine_append_of_nil ended mid

/-- A line that is shown starts in the window where it starts in the text. -/
theorem lineOffset (h : window.Around text before mid c rest after) :
    text.lineOffset (before ++ mid).endLine =
      before.byteSize + (mid ++ c :: rest).lineOffset mid.endLine := by
  have inText := Text.lineOffset_endLine (before ++ mid) (c :: rest ++ after)
  have inWindow := Text.lineOffset_endLine mid (c :: rest)
  have whole : before ++ mid ++ (c :: rest ++ after) = text := by simp [h.split]
  rw [whole, h.lastLine, Text.byteSize_append] at inText
  omega

/-- The window goes on behind the character, so one byte of it can be highlighted. -/
theorem highlight (h : window.Around text before mid c rest after) :
    window.highlight text (.emptyAt (before ++ mid).byteSize) =
      ⟨mid.byteSize, mid.byteSize + 1⟩ := by
  have bound : mid.byteSize + 1 ≤ (mid ++ c :: rest).byteSize + 1 := by
    rw [Text.byteSize_append]
    omega
  simp only [Window.highlight, Span.emptyAt, h.place, h.source, if_true, Nat.min_eq_left bound]

end Window.Around

/-- A snippet shows the lines around a line under their numbers, and its mark stands under the byte at
a place in that line, at least one column wide. -/
structure Snippet.Shows (snippet : Snippet) (text : Text) (line place : Nat) : Prop where
  firstLine : snippet.firstLine = max 1 (line - 1)
  lines : snippet.lines =
    (text.linesBetween (max 1 (line - 1)) (line + 1)).lines.map Window.lineContent
  markLine : snippet.markLine = line
  mark : ∃ shown, snippet.lines[line - snippet.firstLine]? = some shown ∧
    let column (offset : Nat) := shown.displayColumn (offset - text.lineOffset line)
    snippet.mark = ⟨column place, max (column place + 1) (column (place + 1))⟩

section Windows

variable (front : Text) (c : Char) (back : Text)

/-- A line has no higher number than its text has bytes, if a character stands in it. -/
theorem Text.endLine_le : front.endLine ≤ (front ++ c :: back).byteSize := by
  have breaks : front.count '\n' ≤ front.length := List.count_le_length
  have := front.length_le_byteSize
  have := c.utf8Size_pos
  rw [endLine, byteSize_append, byteSize_cons]
  omega

variable (fits : (front ++ c :: back).byteSize < 2 ^ 32)
include fits

/-- The window around a character, by the line that the character stands in. -/
theorem Text.windowAround_append :
    let text := front ++ c :: back
    let line := front.endLine
    text.windowAround (.emptyAt front.byteSize) =
      ⟨max 1 (line - 1), ⟨text.lineOffset (max 1 (line - 1)), text.lineOffset (line + 2)⟩⟩ := by
  have exact' := @endLocation_line front (Nat.lt_of_le_of_lt (front.endLine_le c back) fits)
  simp only [windowAround, Span.emptyAt, location_append, exact']

/-- The window around a character shows it, with whole lines from the one before its line to the one
behind it. -/
theorem Text.exists_around :
    let text := front ++ c :: back
    let line := front.endLine
    ∃ before mid rest after, front = before ++ mid ∧
      (text.windowAround (.emptyAt front.byteSize)).Around text before mid c rest after ∧
      mid ++ c :: rest = text.linesBetween (max 1 (line - 1)) (line + 1) := by
  intro text line
  have counted : line = 1 + front.count '\n' := rfl
  have order : max 1 (line - 1) ≤ line + 1 + 1 := by omega
  have split := text.eq_append_linesBetween order
  have size : _ = text.lineOffset (line + 2) := text.lineOffset_linesBetween order
  have begun := text.lineOffset_eq (max 1 (line - 1))
  have breaks := text.count_take_lines (max 1 (line - 1) - 1)
  have number : text.count '\n' = front.count '\n' + (c :: back).count '\n' := List.count_append
  have window := windowAround_append front c back fits
  generalize (text.lines.take (max 1 (line - 1) - 1)).flatten = before at split begun breaks
  generalize (text.lines.drop (line + 1)).flatten = after at split
  generalize text.linesBetween (max 1 (line - 1)) (line + 1) = shown at *
  -- the window starts before the line of the character and stops behind it
  obtain ⟨above, below⟩ : text.lineOffset (front.count '\n' + 1) ≤ front.byteSize ∧
      front.byteSize < text.lineOffset (front.count '\n' + 2) := between_lineOffsets front c back
  have first := @lineOffset_mono text (max 1 (line - 1)) (front.count '\n' + 1) (by omega)
  have last := @lineOffset_mono text (front.count '\n' + 2) (line + 2) (by omega)
  obtain ⟨mid, rest, rfl, rfl⟩ := cut_inside split.symm (by omega) (by omega)
  have first_line : max 1 (line - 1) = before.count '\n' + 1 := by omega
  refine ⟨before, mid, rest, after, rfl, ⟨split, ?_, ?_, ?_, ?_⟩, rfl⟩
  · rw [window]
    exact first_line
  · rw [← first_line]
    exact begun
  · rw [window]
    exact begun
  · rw [window]
    exact (begun ▸ size).symm

/-- The first line of a window starts with it, and the line behind the last one where it stops,
unless the text stops there. -/
theorem Text.windowAround_ends :
    let text := front ++ c :: back
    let line := front.endLine
    let window := text.windowAround (.emptyAt front.byteSize)
    (LineIndex.ofText text).lineStart? window.firstLine = some window.span.start ∧
      ((LineIndex.ofText text).lineStart? (line + 2) = some window.span.stop ∨
        (LineIndex.ofText text).lineCount < line + 2 ∧ window.span.stop = text.byteSize) := by
  intro text line window
  have shown : window = _ := windowAround_append front c back fits
  have counted : line = 1 + front.count '\n' := rfl
  rw [shown]
  constructor
  · refine (LineIndex.lineStart?_or_end text _).resolve_right ?_
    rintro ⟨none, -⟩
    change _ < max 1 (line - 1) at none
    rw [LineIndex.lineCount_eq, length_rows, List.count_append] at none
    omega
  · exact LineIndex.lineStart?_or_end text _

/-- A snippet made at a character shows the window around it. -/
theorem Snippet.ofPlace_shows (message : String) :
    (ofPlace (front ++ c :: back) (.emptyAt front.byteSize) message).Shows (front ++ c :: back)
      front.endLine front.byteSize := by
  have window := Text.windowAround_append front c back fits
  obtain ⟨before, mid, rest, after, rfl, around, shown⟩ := Text.exists_around front c back fits
  have row : ((LineIndex.ofText (mid ++ c :: rest)).begun mid.byteSize).length = mid.endLine := by
    rw [LineIndex.begun_append, LineIndex.length_begun, Nat.add_comm]
    rfl
  have above : mid.endLine - 1 = mid.count '\n' := Nat.add_sub_cancel_left 1 _
  have counted : (before ++ mid).endLine = before.count '\n' + 1 + mid.count '\n' := by
    rw [Text.endLine, List.count_append]
    omega
  obtain ⟨line, there⟩ := Text.exists_line mid c rest
  have marked : ((mid ++ c :: rest).lines.map Window.lineContent)[mid.count '\n']? =
      some (Window.lineContent line) := by
    rw [List.getElem?_map, there, Option.map_some]
  constructor
  · exact congrArg Window.firstLine window
  · rw [← shown, ← around.source]
    rfl
  · simp only [ofPlace, around.highlight, around.source, around.number, row, above, counted]
  · refine ⟨Window.lineContent line, ?_, ?_⟩
    · simp only [ofPlace, Window.lines, around.source, around.number, counted,
        Nat.add_sub_cancel_left, marked]
    · simp only [ofPlace, Window.lines, around.highlight, around.source, row, above, marked,
        Option.getD_some]
      rw [around.lineOffset, Text.byteSize_append, Nat.add_assoc, Nat.add_sub_add_left,
        Nat.add_sub_add_left]

end Windows

/-- Counting lines leads where the index of line starts does, and to the end of the text for a line
that does not exist. Where a text of fewer than 2 ^ 32 bytes leaves something open, the window has
exactly the lines from the one before its line to the one behind it, as far as they exist: it can be
cut out, it starts where its first line starts, and stops where the next line starts or with the
text. The place lies inside the window, and one byte is highlighted there. The snippet has the lines
of the window under their numbers, and its mark stands under the byte that is highlighted. -/
theorem snippet_shows_lines (text : Text) :
    let index := LineIndex.ofText text
    (∀ n, text.lineOffset n = (index.lineStart? n).getD text.byteSize) ∧
    ∀ e, tokenize text = .error e → text.byteSize < 2 ^ 32 →
      let line := (text.location e.start).line.toNat
      let window := text.windowAround e.place
      window.firstLine = max 1 (line - 1) ∧
      text.slice? window.span = some (text.linesBetween (max 1 (line - 1)) (line + 1)) ∧
      index.lineStart? window.firstLine = some window.span.start ∧
      (index.lineStart? (line + 2) = some window.span.stop ∨
        index.lineCount < line + 2 ∧ window.span.stop = text.byteSize) ∧
      window.span.start ≤ e.start ∧ e.start < window.span.stop ∧
      window.highlight text e.place =
        ⟨e.start - window.span.start, e.start - window.span.start + 1⟩ ∧
      line ≤ text.byteSize ∧
      (Snippet.ofPlace text e.place e.message).Shows text line e.start := by
  intro index
  constructor
  · exact LineIndex.lineOffset_eq_lineStart? text
  intro e failed fits
  obtain ⟨front, c, back, rfl, size⟩ := tokenize_error_cut failed
  have bound := Text.endLine_le front c back
  have counted := @Text.endLocation_line front (Nat.lt_of_le_of_lt bound fits)
  rw [Unterminated.place, ← size, Text.location_append, counted]
  intro line window
  have shows' := Snippet.ofPlace_shows front c back fits e.message
  obtain ⟨begins, ends⟩ := Text.windowAround_ends front c back fits
  have number : window.firstLine = max 1 (line - 1) :=
    congrArg Window.firstLine (Text.windowAround_append front c back fits)
  obtain ⟨before, mid, rest, after, rfl, around, lines⟩ := Text.exists_around front c back fits
  refine ⟨number, around.slice.trans (congrArg some lines), begins, ends, around.inside.1,
    around.inside.2, ?_, bound, shows'⟩
  rw [around.place]
  exact around.highlight

/-- A string left open on the third of five lines: the window has the second, which is empty, to the
fourth. -/
theorem openString_shown :
    let text : Text := ['a', '\n', '\n', '\x22', 'b', '\n', 'c', '\n', 'd']
    let window := text.windowAround (.emptyAt 3)
    tokenize text = .error ⟨.string, 3⟩ ∧ text.byteSize < 2 ^ 32 ∧ window = ⟨2, ⟨2, 8⟩⟩ ∧
      text.slice? window.span = some ['\n', '\x22', 'b', '\n', 'c', '\n'] ∧
      window.highlight text (.emptyAt 3) = ⟨1, 2⟩ := by
  intro text window
  have left_open : (Scanner.initial.run text).2 = some ⟨.string, 3⟩ := by decide +kernel
  have failed : tokenize text = .error ⟨.string, 3⟩ := by
    rw [tokenize_eq, left_open]
    rfl
  have fits : text.byteSize < 2 ^ 32 := by decide
  obtain ⟨-, found⟩ := snippet_shows_lines text
  obtain ⟨-, sliced, -, -, -, -, highlighted, -⟩ := found ⟨.string, 3⟩ failed fits
  have line : (text.location 3).line = 3 := by decide +kernel
  have lines : text.linesBetween 2 4 = ['\n', '\x22', 'b', '\n', 'c', '\n'] := by decide +kernel
  rw [line] at sliced
  exact ⟨failed, fits, by decide +kernel, sliced.trans (congrArg some lines),
    highlighted.trans (by decide +kernel)⟩

end CellBindings
