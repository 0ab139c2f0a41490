import CellBindings.Snippet.Margin
import CellBindings.Snippet.TerminalRow
import CellBindings.Snippet.Window
import CellBindings.Token.Scanner

/-!
Source snippets: where a text is left unterminated, the line of the place is shown with the line
before it and the line after it, and a mark under the place. A place behind the end of the text has
no snippet.
-/

namespace CellBindings

structure Snippet where
  firstLine : Nat
  /-- The lines shown, without their line breaks. -/
  lines : List Text
  /-- Number of the line with the mark. -/
  markLine : Nat
  /-- Columns of the mark, from zero. -/
  mark : Span
  /-- What is written beside the mark. -/
  label : Text
  deriving DecidableEq, Repr

namespace Snippet

/-- Columns of the terminal that snippets are written for. -/
def terminalWidth : Nat := 140

def digits (n : Nat) : Nat := (Nat.repr n).length

/-- The snippet of a place with a message beside the mark. The mark is at least one column wide. -/
def ofPlace (text : Text) (place : Span) (message : String) : Snippet :=
  let window := text.windowAround place
  let source := window.source text
  let marked := window.highlight text place
  let row := ((LineIndex.ofText source).begun marked.start).length
  let line := ((window.lines text)[row - 1]?).getD []
  let column (offset : Nat) : Nat := line.displayColumn (offset - source.lineOffset row)
  { firstLine := window.firstLine
    lines := window.lines text
    markLine := window.firstLine + (row - 1)
    mark := ⟨column marked.start, max (column marked.start + 1) (column marked.stop)⟩
    label := (message ++ " at " ++ (text.location place.start).render).toList }

/-- Number of the line after the last one shown. -/
def nextLine (snippet : Snippet) : Nat := snippet.firstLine + snippet.lines.length

/-- Columns taken by line numbers. -/
def numberWidth (snippet : Snippet) : Nat := digits (snippet.nextLine - 1)

/-- The column at which lines start, after a number, a blank, a bar and a blank. -/
def codeColumn (snippet : Snippet) : Nat := snippet.numberWidth + 3

/-- The margin leaves room for the number of the line after the last one. -/
def margin (snippet : Snippet) : Margin :=
  Margin.fit (terminalWidth - (digits snippet.nextLine + 3))
    ((snippet.lines.filterMap Text.indentation?).min?.getD 0)
    ((snippet.lines.map Text.byteSize).max?.getD 0)
    snippet.mark.start (snippet.mark.stop + snippet.label.byteSize + 1)

def ellipsis : Text := "...".toList

/-- A bar without a line number. -/
def gutterRow (snippet : Snippet) : TerminalRow :=
  TerminalRow.write [] (snippet.numberWidth + 1) .frame ['|']

def sourceRow (snippet : Snippet) (number : Nat) (line : Text) : TerminalRow :=
  let line := line.expandTabs
  let code := snippet.margin.visible line
  let blanks := List.replicate (snippet.numberWidth - digits number) ' '
  let head := blanks ++ (Nat.repr number).toList ++ " |".toList
  let numbered := TerminalRow.write [] 0 .frame head
  let coded := if code.isEmpty then numbered else numbered.write snippet.codeColumn .plain code
  let started :=
    if 0 < snippet.margin.left then coded.write snippet.codeColumn .frame ellipsis else coded
  if snippet.margin.cutsRight line then
    started.write (snippet.codeColumn + code.length - ellipsis.length) .frame ellipsis
  else started

/-- The mark under a line and its label, moved left by what is cut from the line. The label does
not leave the columns of the line. -/
def markRow (snippet : Snippet) (line : Text) : TerminalRow :=
  let cut := snippet.margin.cutLeft line.expandTabs.byteSize
  let column := snippet.codeColumn + snippet.mark.start - cut
  let marked := snippet.gutterRow.write column .alert (List.replicate snippet.mark.length '^')
  marked.write (snippet.codeColumn + (snippet.mark.stop + 1 - cut)) .alert snippet.label

def rows (snippet : Snippet) : List TerminalRow :=
  let body := snippet.lines.zipIdx.flatMap fun (line, index) =>
    let number := snippet.firstLine + index
    snippet.sourceRow number line ::
      if number = snippet.markLine then [snippet.markRow line] else []
  snippet.gutterRow :: body ++ [snippet.gutterRow]

def title (label : String) : String :=
  Ink.alert.paint "error" ++ if label.isEmpty then "" else s!": \x1b[1m{label}\x1b[0m"

/-- The snippet under a title with a label of its own. -/
def render (snippet : Snippet) (label : String) : String :=
  String.intercalate "\n" (title label :: snippet.rows.map TerminalRow.render)

end Snippet

/-- An unterminated construct is shown where it starts. -/
def Unterminated.place (error : Unterminated) : Span := .emptyAt error.start

def Unterminated.snippet (error : Unterminated) (text : Text) (label : String) : String :=
  if text.byteSize < error.place.start ∨ text.byteSize < error.place.stop then
    s!"Parse error for {label}: tokenizer error: {error.message}"
  else (Snippet.ofPlace text error.place error.message).render label

end CellBindings
