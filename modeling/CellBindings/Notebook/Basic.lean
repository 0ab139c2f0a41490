import CellBindings.Text.Blank
import CellBindings.Text.Lines

/-!
Notebooks: a file of sections, each begun by a delimiter line. The label of a section is the id of a
cell, or announces the order in which cells are shown; what follows that is no cell. The body of a
cell is its code with metadata lines before it, and the code of a disabled cell stands in a block
comment.
-/

namespace CellBindings

structure Notebook.Cell where
  id : Text
  /-- The code without metadata lines and trailing blanks. -/
  code : Text
  /-- Where the code starts in the file. -/
  offset : Nat
  disabled : Bool
  deriving DecidableEq, Repr

structure Notebook where
  cells : List Notebook.Cell
  deriving DecidableEq, Repr

inductive NotebookError where
  | missingHeader
  | invalidCellId (line : Nat) (id : Text)
  deriving DecidableEq, Repr

namespace Notebook

/-- The first line of every notebook. -/
def header : Text :=
  ['#', '#', '#', ' ', 'A', ' ', 'P', 'l', 'u', 't', 'o', '.', 'j', 'l', ' ', 'n', 'o', 't', 'e',
    'b', 'o', 'o', 'k', ' ', '#', '#', '#']

/-- What a delimiter line starts with. -/
def delimiter : Text := ['#', ' ', '╔', '═', '╡', ' ']

/-- What a metadata line starts with. -/
def metadata : Text := ['#', ' ', '╠', '═', '╡', ' ']

def orderLabel : Text := ['C', 'e', 'l', 'l', ' ', 'o', 'r', 'd', 'e', 'r', ':']

def disabledMark : Text :=
  ['d', 'i', 's', 'a', 'b', 'l', 'e', 'd', ' ', '=', ' ', 't', 'r', 'u', 'e']

def commentOpening : Text := ['#', '=', '╠', '═', '╡']

def commentClosing : Text := ['╠', '═', '╡', ' ', '=', '#']

def packageId (last : Char) : Text :=
  let zeros (n : Nat) : Text := List.replicate n '0'
  zeros 8 ++ '-' :: zeros 4 ++ '-' :: zeros 4 ++ '-' :: zeros 4 ++ '-' :: zeros 11 ++ [last]

/-- Ids of the cells that hold the package environment. -/
def packageIds : List Text := [packageId '1', packageId '2']

def isHexDigit (c : Char) : Bool :=
  ('0' ≤ c && c ≤ '9') || ('a' ≤ c && c ≤ 'f') || ('A' ≤ c && c ≤ 'F')

/-- Hexadecimal digits in groups of 8, 4, 4, 4 and 12 with hyphens between them. -/
def isCellId (id : Text) : Bool :=
  id.length == 36 && id.zipIdx.all fun (c, i) =>
    if i = 8 ∨ i = 13 ∨ i = 18 ∨ i = 23 then c == '-' else isHexDigit c

/-- The first line is the header, after any byte order marks and up to trailing blanks. -/
def isNotebook (content : Text) : Bool :=
  Text.trimEnd ((content.dropWhile (· == '\ufeff')).takeWhile (· != '\n')) == header

structure Section where
  /-- Number of its delimiter line. -/
  line : Nat
  label : Text
  /-- Where the body starts in the file. -/
  offset : Nat
  body : Text
  deriving DecidableEq, Repr

def isDelimiter (line : Text) : Bool := delimiter.isPrefixOf line

/-- The sections of some lines, the first of which has the given number and offset. -/
def sectionsFrom (number offset : Nat) : List Text → List Section
  | [] => []
  | line :: rest =>
    let next := offset + Text.byteSize line
    let later := sectionsFrom (number + 1) next rest
    match Text.dropPrefix? line delimiter with
    | none => later
    | some label =>
      ⟨number, Text.trim label, next, (rest.takeWhile (!isDelimiter ·)).flatten⟩ :: later

/-- The sections of a file up to the one that announces the order of cells. -/
def cellSections (content : Text) : List Section :=
  (sectionsFrom 1 0 (Text.lines content)).takeWhile (·.label != orderLabel)

/-- Metadata, and the opening of the comment around disabled code. -/
def isPreamble (line : Text) : Bool :=
  metadata.isPrefixOf line || Text.trimEnd line == commentOpening

def isDisabledMark (line : Text) : Bool :=
  (Text.dropPrefix? line metadata).any (Text.trim · == disabledMark)

def Section.cell (s : Section) : Cell :=
  let lines := Text.lines s.body
  let preamble := lines.takeWhile isPreamble
  let rest := Text.trimEnd (lines.dropWhile isPreamble).flatten
  { id := s.label
    code := ((Text.dropSuffix? rest commentClosing).map Text.trimEnd).getD rest
    offset := s.offset + Text.byteSize preamble.flatten
    disabled := preamble.any isDisabledMark }

/-- The cells of a notebook in file order, without the package environment. -/
def read (content : Text) : Except NotebookError Notebook :=
  if !isNotebook content then .error .missingHeader
  else
    let sections := cellSections content
    match sections.find? (!isCellId ·.label) with
    | some s => .error (.invalidCellId s.line s.label)
    | none => .ok ⟨(sections.map Section.cell).filter fun cell => !packageIds.contains cell.id⟩

def size (notebook : Notebook) : Nat := notebook.cells.length

def isEmpty (notebook : Notebook) : Bool := notebook.cells.isEmpty

def cell? (notebook : Notebook) (id : Text) : Option Cell := notebook.cells.find? (·.id == id)

end Notebook

def NotebookError.message : NotebookError → String
  | .missingHeader =>
    s!"not a Pluto notebook: first line must be `{String.ofList Notebook.header}`"
  | .invalidCellId line id => s!"line {line}: invalid cell id `{String.ofList id}`"

end CellBindings
