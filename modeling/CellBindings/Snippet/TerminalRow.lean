import CellBindings.Text.Basic

/-!
Rows of a terminal: cells that each hold a character and its ink. What is written later covers
what is there, and neighbours of one ink are painted together.
-/

namespace CellBindings

inductive Ink where
  | plain
  /-- Line numbers, bars and ellipses. -/
  | frame
  /-- The mark and what is said about it. -/
  | alert
  deriving DecidableEq, Repr

/-- Text in a terminal colour, in bold, unless it is plain. -/
def Ink.paint (ink : Ink) (text : String) : String :=
  match ink with
  | .plain => text
  | .frame => s!"\x1b[1m\x1b[94m{text}\x1b[0m"
  | .alert => s!"\x1b[1m\x1b[91m{text}\x1b[0m"

structure TerminalCell where
  glyph : Char
  ink : Ink
  deriving DecidableEq, Repr

abbrev TerminalRow := List TerminalCell

namespace TerminalRow

/-- Writes a text from a column on, over what is there; a gap before it is filled with blanks. -/
def write (row : TerminalRow) (column : Nat) (ink : Ink) (text : Text) : TerminalRow :=
  let filled := row ++ List.replicate (column - row.length) ⟨' ', .plain⟩
  filled.take column ++ text.map (⟨·, ink⟩) ++ filled.drop (column + text.length)

/-- The longest pieces of one ink, from left to right. -/
def runs : TerminalRow → List (Ink × Text)
  | [] => []
  | cell :: rest =>
    match runs rest with
    | [] => [(cell.ink, [cell.glyph])]
    | (ink, text) :: others =>
      if ink = cell.ink then (ink, cell.glyph :: text) :: others
      else (cell.ink, [cell.glyph]) :: (ink, text) :: others

def render (row : TerminalRow) : String :=
  String.join (row.runs.map fun (ink, text) => ink.paint (String.ofList text))

end TerminalRow

end CellBindings
