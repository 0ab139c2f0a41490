import CellBindings.Text.Basic

/-!
Lines and columns. Lines and columns count from one, columns count characters. The line index of a
text lists the offsets where its lines start: offset zero and the offset after each line break. A
location keeps 32 bits of each number.
-/

namespace CellBindings

instance coeUInt32 : Coe UInt32 Nat := ⟨UInt32.toNat⟩

structure Location where
  line : UInt32
  column : UInt32
  deriving DecidableEq, Repr

def Location.render (l : Location) : String := s!"{l.line}:{l.column}"

structure LineIndex where
  starts : List Nat
  deriving DecidableEq, Repr

namespace LineIndex

/-- Offsets after the line breaks of a text that stands at `offset`. -/
def breaks : Nat → Text → List Nat
  | _, [] => []
  | offset, c :: cs =>
    let next := offset + c.utf8Size
    if c = '\n' then next :: breaks next cs else breaks next cs

def ofText (text : Text) : LineIndex := ⟨0 :: breaks 0 text⟩

def lineCount (index : LineIndex) : Nat := index.starts.length

/-- Line zero is taken for the first line. -/
def lineStart? (index : LineIndex) (line : Nat) : Option Nat :=
  index.starts[line - 1]?

/-- The starts of the lines up to the one that a place stands in. -/
def begun (index : LineIndex) (place : Nat) : List Nat := index.starts.takeWhile (· ≤ place)

/-- An offset past the end stands for the end, one inside a character for its first byte. Numbers
that do not fit wrap around. -/
def location (index : LineIndex) (text : Text) (offset : Nat) : Location :=
  let place := text.boundaryBefore offset
  let line := (text.slice? ⟨(index.begun place).getLastD 0, place⟩).getD []
  ⟨.ofNat (index.begun place).length, .ofNat (line.length + 1)⟩

/-- The offset of a line and column: a column past the line is the end of the line, a line past the
text is the end of the text, and zero counts as one. -/
def offset (index : LineIndex) (text : Text) (line column : Nat) : Nat :=
  match index.lineStart? line with
  | none => text.byteSize
  | some start =>
    let stop := (index.starts[max line 1]?).elim text.byteSize (· - 1)
    let content := (text.slice? ⟨start, stop⟩).getD []
    start + Text.byteSize (content.take (column - 1))

end LineIndex

namespace Text

/-- The location of a byte in a text. -/
def location (text : Text) (offset : Nat) : Location :=
  (LineIndex.ofText text).location text offset

/-- The lines of a text, each with its line break. -/
def lines : Text → List Text
  | [] => []
  | c :: cs =>
    if c = '\n' then [c] :: lines cs
    else
      match lines cs with
      | [] => [[c]]
      | line :: rest => (c :: line) :: rest

/-- Where a line starts, counted without an index; the end of the text if there is no such line. -/
def lineOffset : Text → Nat → Nat
  | _, 0 | _, 1 | [], _ => 0
  | c :: cs, n + 2 => c.utf8Size + lineOffset cs (if c = '\n' then n + 1 else n + 2)

@[simp] theorem flatten_lines (text : Text) : (lines text).flatten = text := by
  induction text with
  | nil => rfl
  | cons c cs ih =>
    rw [lines]
    split
    · simp [ih]
    · split
      · next none => simp [none] at ih; simp [← ih]
      · next line rest some => simp [some] at ih; simp [← ih]

/-- A line and its break. -/
theorem lines_line {line : Text} (h : '\n' ∉ line) (rest : Text) :
    lines (line ++ '\n' :: rest) = (line ++ ['\n']) :: lines rest := by
  induction line with
  | nil => rfl
  | cons c cs ih =>
    simp only [List.mem_cons, not_or] at h
    simp only [List.cons_append, lines, if_neg (Ne.symm h.1), ih h.2]

end Text

end CellBindings
