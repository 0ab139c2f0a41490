import Mathlib.Data.List.TakeWhile
import CellBindings.Proofs.WrittenNotebooks

/-!
Cells are verbatim pieces of their file. A file is cut into lines, the lines into sections, and each
section into what stands before the code of its cell, the code, and what stands behind it. No cut
changes a character, so the code of a cell is found in the file where the cell says, and the pieces
around it can be told from it.
-/

namespace CellBindings

namespace Text

/-- The lines behind the first one are those of the text behind it. If there are any, the first one
ends in a line break. -/
theorem lines_cons {text line : Text} {rest : List Text} (h : lines text = line :: rest) :
    lines rest.flatten = rest ∧ (rest ≠ [] → line.getLast? = some '\n') := by
  induction text generalizing line rest with
  | nil => cases h
  | cons c cs ih =>
    rw [lines] at h
    split at h
    · next newline =>
      cases h
      exact ⟨by rw [flatten_lines], fun _ => by rw [newline]; rfl⟩
    · split at h
      · cases h
        exact ⟨rfl, fun some => absurd rfl some⟩
      · next found =>
        cases h
        obtain ⟨same, ends⟩ := ih found
        refine ⟨same, fun some => ?_⟩
        rw [List.getLast?_cons, ends some]
        rfl

theorem lines_of_suffix {text : Text} {before after : List Text}
    (h : lines text = before ++ after) : lines after.flatten = after := by
  induction before generalizing text with
  | nil => rw [← List.nil_append after, ← h, flatten_lines]
  | cons line before ih => exact ih (lines_cons h).1

theorem lines_of_prefix {text : Text} {before after : List Text}
    (h : lines text = before ++ after) : lines before.flatten = before := by
  cases after with
  | nil => rw [← List.append_nil before, ← h, flatten_lines]
  | cons next after =>
    have ends : ∀ c ∈ before.flatten.getLast?, c = '\n' := by
      rcases List.eq_nil_or_concat before with rfl | ⟨front, last, rfl⟩
      · simp
      · rw [List.concat_eq_append, List.append_assoc] at h
        have broken := (lines_cons (lines_of_suffix h)).2 (by simp)
        simp [broken]
    have whole := lines_append ends (next :: after).flatten
    rw [lines_of_suffix h, ← List.flatten_append, ← h, flatten_lines, h] at whole
    exact (List.append_cancel_right whole).symm

/-- What trimming takes off the end is blank. -/
theorem trimEnd_blanks (text : Text) :
    ∃ blanks : Text, (∀ c ∈ blanks, isBlank c = true) ∧ text = trimEnd text ++ blanks := by
  refine ⟨(text.reverse.takeWhile isBlank).reverse, ?_, ?_⟩
  · intro c mem
    exact List.mem_takeWhile_imp (List.mem_reverse.mp mem)
  · rw [trimEnd, ← List.reverse_append, List.takeWhile_append_dropWhile, List.reverse_reverse]

end Text

namespace Notebook

inductive IsClosing : Text → Prop where
  | blanks {blanks : Text} : (∀ c ∈ blanks, isBlank c = true) → IsClosing blanks
  | mark {blanks more : Text} : (∀ c ∈ blanks ++ more, isBlank c = true) →
      IsClosing (blanks ++ (commentClosing ++ more))

/-- The lines of a file, cut around one of its cells: those before it, its delimiter line, those
before its code, those with its code, and those from the next delimiter line on. -/
structure Cut where
  before : List Text
  heading : Text
  preamble : List Text
  code : List Text
  after : List Text

structure Cut.Shows (cut : Cut) (content : Text) (cell : Cell) : Prop where
  lines : Text.lines content =
    cut.before ++ cut.heading :: (cut.preamble ++ (cut.code ++ cut.after))
  heading : ∃ label : Text, cut.heading = delimiter ++ label ∧ label.trim = cell.id
  body : ∀ line ∈ cut.preamble ++ cut.code, ¬ delimiter <+: line
  after : ∀ line ∈ cut.after.head?, delimiter <+: line
  offset : cell.offset =
    Text.byteSize (cut.before.flatten ++ (cut.heading ++ cut.preamble.flatten))
  preamble : ∀ line ∈ cut.preamble, metadata <+: line ∨ Text.trimEnd line = commentOpening
  code : ∃ closing, cut.code.flatten = cell.code ++ closing ∧ IsClosing closing
  disabled : cell.disabled = true ↔
    ∃ value : Text, metadata ++ value ∈ cut.preamble ∧ value.trim = disabledMark

section Sections

variable {number offset : Nat} {lines : List Text} {s t : Section}

def Section.StandsIn (s : Section) (offset : Nat) (lines : List Text) : Prop :=
  ∃ (before : List Text) (label : Text) (body after : List Text),
    lines = before ++ (delimiter ++ label) :: (body ++ after) ∧
    s.label = label.trim ∧ s.body = body.flatten ∧
    s.offset = offset + Text.byteSize (before.flatten ++ (delimiter ++ label)) ∧
    (∀ line ∈ body, isDelimiter line = false) ∧ ∀ line ∈ after.head?, isDelimiter line = true

theorem Section.StandsIn.cons {line : Text}
    (h : s.StandsIn (offset + line.byteSize) lines) : s.StandsIn offset (line :: lines) := by
  obtain ⟨before, label, body, after, split, named, text, place, inside, next⟩ := h
  refine ⟨line :: before, label, body, after, by rw [split]; rfl, named, text, ?_, inside, next⟩
  rw [place, List.flatten_cons, List.append_assoc, Text.byteSize_append line, Nat.add_assoc]

theorem sectionsFrom_standsIn (h : s ∈ sectionsFrom number offset lines) :
    s.StandsIn offset lines := by
  induction lines generalizing number offset with
  | nil => cases h
  | cons line lines ih =>
    rw [sectionsFrom] at h
    split at h
    · exact (ih h).cons
    · next label found =>
      rcases List.mem_cons.mp h with rfl | h
      · refine ⟨[], label, lines.takeWhile (!isDelimiter ·), lines.dropWhile (!isDelimiter ·), ?_,
          rfl, rfl, ?_, ?_, ?_⟩
        · rw [List.takeWhile_append_dropWhile, ← Text.eq_append_of_dropPrefix? found]
          rfl
        · rw [← Text.eq_append_of_dropPrefix? found]
          rfl
        · intro other mem
          simpa using List.mem_takeWhile_imp mem
        · intro other mem
          have stops := List.head?_dropWhile_not (!isDelimiter ·) lines
          rw [Option.mem_def.mp mem] at stops
          simpa using stops
      · exact (ih h).cons

/-- No section starts before the first delimiter line. -/
theorem sectionsFrom_behind (h : t ∈ sectionsFrom number offset lines) :
    offset + Text.byteSize (lines.takeWhile (!isDelimiter ·)).flatten ≤ t.offset := by
  induction lines generalizing number offset with
  | nil => cases h
  | cons line lines ih =>
    cases starts : isDelimiter line with
    | true =>
      obtain ⟨_, _, _, _, _, _, _, place, _⟩ := sectionsFrom_standsIn h
      simp only [starts, List.takeWhile_cons, Bool.not_true, Bool.false_eq_true, if_false,
        List.flatten_nil, Text.byteSize_nil]
      omega
    | false =>
      simp only [sectionsFrom, dropPrefix?_of_not_delimiter starts] at h
      have behind := ih h
      simp only [starts, List.takeWhile_cons, Bool.not_false, if_true, List.flatten_cons,
        Text.byteSize_append]
      omega

/-- Sections follow one another. -/
theorem sectionsFrom_ordered (number offset : Nat) (lines : List Text) :
    (sectionsFrom number offset lines).Pairwise
      fun s t => s.offset + Text.byteSize s.body ≤ t.offset := by
  induction lines generalizing number offset with
  | nil => exact .nil
  | cons line lines ih =>
    rw [sectionsFrom]
    split
    · exact ih _ _
    · exact .cons (fun t ht => sectionsFrom_behind ht) (ih _ _)

end Sections

section Cells

variable {content : Text} {notebook : Notebook} {s : Section}

theorem cells_of_read (h : read content = .ok notebook) :
    notebook.cells = ((cellSections content).map Section.cell).filter
      fun cell => !packageIds.contains cell.id := by
  unfold read at h
  split at h
  · cases h
  · dsimp only at h
    split at h
    · cases h
    · cases h
      rfl

/-- A cell lies in the body of its section. -/
theorem Section.cell_within (s : Section) :
    s.offset ≤ s.cell.offset ∧
      s.cell.offset + s.cell.code.byteSize ≤ s.offset + s.body.byteSize := by
  obtain ⟨front, back, body, offset⟩ := s.cell_cut
  rw [body, offset, Text.byteSize_append, Text.byteSize_append]
  omega

/-- What follows the code in the body is white space, with at most one closing mark. -/
theorem Section.cell_closing (s : Section) :
    ∃ closing, ((Text.lines s.body).dropWhile isPreamble).flatten = s.cell.code ++ closing ∧
      IsClosing closing := by
  unfold Section.cell
  dsimp only
  generalize ((Text.lines s.body).dropWhile isPreamble).flatten = rest
  obtain ⟨blanks, blank, split⟩ := Text.trimEnd_blanks rest
  cases closed : Text.dropSuffix? (Text.trimEnd rest) commentClosing with
  | none => exact ⟨blanks, split, .blanks blank⟩
  | some inside =>
    obtain ⟨more, blank', split'⟩ := Text.trimEnd_blanks inside
    refine ⟨more ++ (commentClosing ++ blanks), ?_, .mark ?_⟩
    · rw [Option.map_some, Option.getD_some, ← List.append_assoc, ← split', ← List.append_assoc,
        ← Text.eq_append_of_dropSuffix? closed]
      exact split
    · intro c mem
      rcases List.mem_append.mp mem with mem | mem
      · exact blank' c mem
      · exact blank c mem

theorem isDisabledMark_iff {line : Text} :
    isDisabledMark line = true ↔
      ∃ value : Text, line = metadata ++ value ∧ value.trim = disabledMark := by
  constructor
  · intro marked
    obtain ⟨value, found, same⟩ := (Option.any_eq_true ..).mp marked
    exact ⟨value, Text.eq_append_of_dropPrefix? found, by simpa using same⟩
  · rintro ⟨value, rfl, same⟩
    simp [isDisabledMark, Text.dropPrefix?_append, same]

/-- Each cell is shown by the file at the cut around it: the body of its section is made of lines of
the file, so that cutting it into lines again gives those. -/
theorem section_shown (h : s ∈ cellSections content) :
    ∃ cut : Cut, cut.Shows content s.cell := by
  obtain ⟨before, label, body, after, split, named, text, place, inside, next⟩ :=
    sectionsFrom_standsIn (List.takeWhile_sublist _ |>.mem h)
  have own : Text.lines s.body = body := by
    rw [text]
    have behind : Text.lines content = (before ++ [delimiter ++ label]) ++ (body ++ after) := by
      rw [split]
      simp
    exact Text.lines_of_prefix (Text.lines_of_suffix behind)
  obtain ⟨closing, code, closes⟩ := s.cell_closing
  rw [own] at code
  refine ⟨⟨before, delimiter ++ label, body.takeWhile isPreamble, body.dropWhile isPreamble, after⟩,
    ?_, ⟨label, rfl, named.symm⟩, ?_, ?_, ?_, ?_, ⟨closing, code, closes⟩, ?_⟩
  · rw [split, ← List.append_assoc (body.takeWhile isPreamble), List.takeWhile_append_dropWhile]
  · intro line mem
    rw [List.takeWhile_append_dropWhile] at mem
    rw [← List.isPrefixOf_iff_prefix, Bool.not_eq_true]
    exact inside line mem
  · intro line mem
    exact List.isPrefixOf_iff_prefix.mp (next line mem)
  · simp only [Section.cell, own, place, Text.byteSize_append]
    omega
  · intro line mem
    simpa [isPreamble] using List.mem_takeWhile_imp mem
  · simp only [Section.cell, own, List.any_eq_true, isDisabledMark_iff]
    constructor
    · rintro ⟨_, mem, value, rfl, same⟩
      exact ⟨value, mem, same⟩
    · rintro ⟨value, mem, same⟩
      exact ⟨_, mem, value, rfl, same⟩

end Cells

/-- The cells of a notebook that can be read. The file has the code of each cell at its offset. The
lines of the file can be cut around the cell: it stands between its delimiter line and the next one,
with metadata and comment openings before its code and white space, with at most one comment
closing, behind it; and it is disabled exactly if one of the metadata lines says so. The cells are
in the order of the file and do not overlap. -/
theorem cells_verbatim (content : Text) (notebook : Notebook)
    (accepted : read content = .ok notebook) :
    (∀ cell ∈ notebook.cells,
      content.slice? ⟨cell.offset, cell.offset + cell.code.byteSize⟩ = some cell.code ∧
      ∃ cut : Cut, cut.Shows content cell) ∧
    notebook.cells.Pairwise fun a b => a.offset + a.code.byteSize ≤ b.offset := by
  constructor
  · intro cell mem
    obtain ⟨front, back, file, place, -⟩ := cell_cut accepted mem
    rw [cells_of_read accepted] at mem
    obtain ⟨s, inside, rfl⟩ := List.mem_map.mp (List.mem_filter.mp mem).1
    refine ⟨?_, section_shown inside⟩
    rw [file, ← place, Text.slice?_append]
  · rw [cells_of_read accepted]
    have ordered := (sectionsFrom_ordered 1 0 (Text.lines content)).sublist
      (List.takeWhile_sublist (·.label != orderLabel))
    refine (List.pairwise_map.mpr (ordered.imp ?_)).filter _
    intro s t apart
    have := s.cell_within
    have := t.cell_within
    omega

/-- Two cells, the first one disabled, with line ends of two characters and none at the end. -/
def twoCells : Text :=
  header ++ '\n' :: (delimiter ++ packageId '3' ++ '\r' :: '\n' ::
    (metadata ++ disabledMark ++ '\r' :: '\n' :: (commentOpening ++ '\r' :: '\n' ::
      ('π' :: '\r' :: '\n' :: (commentClosing ++ '\r' :: '\n' ::
        (delimiter ++ packageId '4' ++ '\n' :: [' ', 'y']))))))

theorem two_cells_verbatim :
    ∃ cells : List Cell,
      cells = [⟨packageId '3', ['π'], 120, true⟩, ⟨packageId '4', [' ', 'y'], 187, false⟩] ∧
      read twoCells = .ok ⟨cells⟩ ∧
      (∀ cell ∈ cells,
        twoCells.slice? ⟨cell.offset, cell.offset + cell.code.byteSize⟩ = some cell.code ∧
        ∃ cut : Cut, cut.Shows twoCells cell) ∧
      cells.Pairwise fun a b => a.offset + a.code.byteSize ≤ b.offset := by
  have accepted : read twoCells =
      .ok ⟨[⟨packageId '3', ['π'], 120, true⟩, ⟨packageId '4', [' ', 'y'], 187, false⟩]⟩ := rfl
  exact ⟨_, rfl, accepted, cells_verbatim twoCells _ accepted⟩

end Notebook

end CellBindings
