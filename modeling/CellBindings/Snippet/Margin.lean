import CellBindings.Text.Blank

/-!
Margins of a snippet: which columns of its lines are shown. Lines that fit are shown whole, apart
from an indentation they share; of wider lines the columns about the mark and its label are kept.
-/

namespace CellBindings

/-- A tab is shown as four blanks. -/
def Text.expandTabs (text : Text) : Text :=
  text.flatMap fun c => if c = '\t' then List.replicate 4 ' ' else [c]

/-- Columns that a text moves a mark by: control characters take none, tabs among them, and every
other character takes one. -/
def Text.displayWidth (text : Text) : Nat :=
  text.countP fun c => 0x20 ≤ c.toNat && !(0x7F ≤ c.toNat && c.toNat ≤ 0x9F)

/-- The column of a byte of a line; one inside a character stands at its first byte, and one behind
the line at its end. -/
def Text.displayColumn (line : Text) (offset : Nat) : Nat :=
  displayWidth ((line.slice? ⟨0, line.boundaryBefore offset⟩).getD [])

/-- Width of the white space at the start of a line, none if the line holds nothing else. -/
def Text.indentation? (line : Text) : Option Nat :=
  if line.all isBlank then none else some (expandTabs (line.takeWhile isBlank)).length

structure Margin where
  /-- The first column shown. -/
  left : Nat
  /-- The column at which a line that is too wide ends. -/
  right : Nat
  /-- How many columns there are. -/
  width : Nat
  deriving DecidableEq, Repr

namespace Margin

/-- Columns kept free about what has to be seen. -/
def clearance : Nat := 6

/-- Shared indentation above this width is cut. -/
def longIndentation : Nat := 20

/-- What is left of an indentation that is cut. -/
def keptIndentation : Nat := 16

/-- The margin for lines that are at most `longest` bytes long and share an indentation, with a
mark at a column and the end of its label. If the lines are too wide, they are shown from their
indentation when the label ends in view, and otherwise with mark and label in the middle. -/
def fit (width indentation longest mark labelEnd : Nat) : Margin :=
  let start := indentation - clearance
  let stop := labelEnd + clearance
  let left := if longIndentation < start then start - keptIndentation else 0
  let right := max longest left
  if right - left ≤ width then ⟨left, right, width⟩
  else if start ≤ stop ∧ stop ≤ start + width then ⟨start, start + width, width⟩
  else
    let first := mark - clearance
    let centred := first - (width - (stop - first)) / 2
    ⟨centred, centred + width, width⟩

/-- Columns of a line of the given length that are cut on the left. -/
def cutLeft (margin : Margin) (length : Nat) : Nat := min margin.left length

/-- The column at which a line of the given length ends. -/
def lineEnd (margin : Margin) (length : Nat) : Nat :=
  if length - margin.left ≤ margin.width then length else min length margin.right

/-- The part of a line within the margin. -/
def visible (margin : Margin) (line : Text) : Text :=
  let length := line.byteSize
  (line.drop (margin.cutLeft length)).take (margin.lineEnd length - margin.cutLeft length)

/-- Whether the right end of a line is not shown. -/
def cutsRight (margin : Margin) (line : Text) : Bool :=
  margin.cutLeft line.byteSize + (margin.visible line).length < line.length

end Margin

end CellBindings
