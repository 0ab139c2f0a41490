import CellBindings.Text.Lines

/-!
The window of a snippet: the lines of a place, the line before them and the line after them, as far
as they exist. What is highlighted is counted from the start of the window.
-/

namespace CellBindings

/-- The piece of a text that a snippet shows. -/
structure Window where
  /-- Number of its first line. -/
  firstLine : Nat
  span : Span
  deriving DecidableEq, Repr

def Text.windowAround (text : Text) (place : Span) : Window :=
  let first := max 1 ((text.location place.start).line.toNat - 1)
  let last := (text.location place.stop).line.toNat + 1
  ⟨first, ⟨text.lineOffset first, text.lineOffset (last + 1)⟩⟩

namespace Window

/-- The text shown. -/
def source (window : Window) (text : Text) : Text := (text.slice? window.span).getD []

/-- Where a place stands in the window. Of an empty place one byte is highlighted, and behind the
text the byte that would follow. -/
def highlight (window : Window) (text : Text) (place : Span) : Span :=
  let start := place.start - window.span.start
  let stop := place.stop - window.span.start
  ⟨start, if start = stop then min (stop + 1) ((window.source text).byteSize + 1) else stop⟩

/-- A line without its line break. -/
def lineContent (line : Text) : Text :=
  (Text.dropSuffix? line ['\r', '\n'] <|> Text.dropSuffix? line ['\n']).getD line

/-- The lines shown, without their line breaks. -/
def lines (window : Window) (text : Text) : List Text :=
  (window.source text).lines.map lineContent

end Window

end CellBindings
