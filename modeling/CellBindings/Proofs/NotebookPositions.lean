import Mathlib.Data.List.Forall2
import CellBindings.Notebook.Analysis
import CellBindings.Proofs.ConfinedNames
import CellBindings.Proofs.LineSearch
import CellBindings.Proofs.TruthfulAnalysis

/-!
Positions in a notebook are positions in its file. The code of a cell is a piece of the file, found
where the cell says. What the analysis of the cell tells of that code is then true of the file, from
the offset of the cell on, and the line and the column are those that one counts there: a delimiter
stands before them, with more bytes than characters, so they fit wherever the offset does.
-/

namespace CellBindings

namespace Text

theorem trimEnd_prefix (text : Text) : text.trimEnd <+: text := by
  have kept := List.reverse_prefix.mpr (List.dropWhile_suffix isBlank (l := text.reverse))
  rwa [List.reverse_reverse] at kept

theorem eq_append_of_dropPrefix? {text lead rest : Text} (h : dropPrefix? text lead = some rest) :
    text = lead ++ rest := by
  induction text, lead using dropPrefix?.induct with
  | case1 text =>
    simp only [dropPrefix?, Option.some.injEq] at h
    exact h
  | case2 => simp [dropPrefix?] at h
  | case3 c cs lead ih =>
    simp only [dropPrefix?, if_pos] at h
    rw [ih h]
    rfl
  | case4 c cs d lead other => simp [dropPrefix?, other] at h

theorem eq_append_of_dropSuffix? {text tail front : Text} (h : dropSuffix? text tail = some front) :
    text = front ++ tail := by
  obtain ⟨rest, cut, rfl⟩ := Option.map_eq_some_iff.mp h
  have split := congrArg List.reverse (eq_append_of_dropPrefix? cut)
  rwa [List.reverse_reverse, List.reverse_append, List.reverse_reverse] at split

theorem dropSuffix?_prefix {text tail front : Text} (h : dropSuffix? text tail = some front) :
    front <+: text :=
  ⟨tail, (eq_append_of_dropSuffix? h).symm⟩

end Text

namespace Notebook

/-- The characters that draw a delimiter have three bytes each. -/
theorem length_lt_byteSize_delimiter (label : Text) :
    (delimiter ++ label).length < (delimiter ++ label).byteSize := by
  have size : delimiter.byteSize = 12 := rfl
  have length : delimiter.length = 6 := rfl
  have := label.length_le_byteSize
  rw [List.length_append, Text.byteSize_append]
  omega

/-- The body of a section is a piece of the lines, found at its offset behind a delimiter. -/
theorem sectionsFrom_cut {number offset : Nat} {lines : List Text} {s : Section}
    (h : s ∈ sectionsFrom number offset lines) :
    ∃ front back : Text, lines.flatten = front ++ (s.body ++ back) ∧
      s.offset = offset + front.byteSize ∧ front.length < front.byteSize := by
  induction lines generalizing number offset with
  | nil => cases h
  | cons line lines ih =>
    have later (hs : s ∈ sectionsFrom (number + 1) (offset + line.byteSize) lines) :
        ∃ front back : Text, (line :: lines).flatten = front ++ (s.body ++ back) ∧
          s.offset = offset + front.byteSize ∧ front.length < front.byteSize := by
      obtain ⟨front, back, cut, place, wide⟩ := ih hs
      have := line.length_le_byteSize
      refine ⟨line ++ front, back, by simp [cut], ?_, ?_⟩
      · rw [place, Text.byteSize_append, Nat.add_assoc]
      · rw [List.length_append, Text.byteSize_append]
        omega
    rw [sectionsFrom] at h
    split at h
    · exact later h
    · next label labelled =>
      rcases List.mem_cons.mp h with rfl | h
      · refine ⟨line, (lines.dropWhile (!isDelimiter ·)).flatten, ?_, rfl, ?_⟩
        · rw [← List.flatten_append, List.takeWhile_append_dropWhile, List.flatten_cons]
        · rw [Text.eq_append_of_dropPrefix? labelled]
          exact length_lt_byteSize_delimiter label
      · exact later h

/-- The code of a cell is a piece of the body of its section, behind the metadata. -/
theorem Section.cell_cut (s : Section) :
    ∃ front back, s.body = front ++ (s.cell.code ++ back) ∧
      s.cell.offset = s.offset + front.byteSize := by
  have code : s.cell.code <+: ((Text.lines s.body).dropWhile isPreamble).flatten := by
    unfold Section.cell
    dsimp only
    generalize ((Text.lines s.body).dropWhile isPreamble).flatten = rest
    have trimmed := Text.trimEnd_prefix rest
    cases closed : Text.dropSuffix? (Text.trimEnd rest) commentClosing with
    | none => exact trimmed
    | some inside =>
      exact (Text.trimEnd_prefix inside).trans ((Text.dropSuffix?_prefix closed).trans trimmed)
  obtain ⟨back, split⟩ := code
  refine ⟨((Text.lines s.body).takeWhile isPreamble).flatten, back, ?_, rfl⟩
  rw [split, ← List.flatten_append, List.takeWhile_append_dropWhile, Text.flatten_lines]

/-- The code of a cell is a piece of the file, found at the offset of the cell behind a
delimiter. -/
theorem cell_cut {content : Text} {notebook : Notebook} (h : read content = .ok notebook)
    {cell : Cell} (hc : cell ∈ notebook.cells) :
    ∃ front back, content = front ++ (cell.code ++ back) ∧ front.byteSize = cell.offset ∧
      front.length < front.byteSize := by
  unfold read at h
  split at h
  · cases h
  · dsimp only at h
    split at h
    · cases h
    · cases h
      obtain ⟨s, hs, rfl⟩ := List.mem_map.mp (List.mem_filter.mp hc).1
      obtain ⟨front, back, body, place, wide⟩ :=
        sectionsFrom_cut (List.takeWhile_sublist _ |>.mem hs)
      obtain ⟨preamble, rest, code, offset⟩ := s.cell_cut
      have := preamble.length_le_byteSize
      rw [Text.flatten_lines] at body
      refine ⟨front ++ preamble, rest ++ back, by simp [body, code], ?_, ?_⟩
      · rw [offset, place, Text.byteSize_append, Nat.zero_add]
      · rw [List.length_append, Text.byteSize_append]
        omega

end Notebook

structure Notebook.Cell.Shows (cell : Notebook.Cell) (content : Text) (span : Span)
    (location : Location) (name : Text) : Prop where
  behind : cell.offset ≤ span.start
  ordered : span.start ≤ span.stop
  within : span.stop ≤ cell.offset + cell.code.byteSize
  slice : content.slice? span = some name
  counted : ∃ front back, content.splitAt? span.start = some (front, back) ∧
    location.line.toNat = 1 + front.count '\n' ∧
    location.column.toNat = 1 + front.lastLine.length

/-- What the code of a cell names, the file shows at the offset of the cell. -/
theorem Text.Names.shows {content name : Text} {cell : Notebook.Cell} {span : Span}
    (cut : ∃ front back, content = front ++ (cell.code ++ back) ∧ front.byteSize = cell.offset ∧
      front.length < front.byteSize)
    (fits : content.byteSize < 2 ^ 32) (h : cell.code.Names span name) :
    cell.Shows content (span.shift cell.offset) (content.location (cell.offset + span.start))
      name := by
  obtain ⟨before, behind, file, place, wide⟩ := cut
  obtain ⟨front, back, code, start, stop⟩ := h.cut
  have whole : content = (before ++ front) ++ (name ++ (back ++ behind)) := by
    rw [file, code]
    simp only [List.append_assoc]
  have size : (before ++ front).byteSize = cell.offset + span.start := by
    rw [Text.byteSize_append, place, start]
  have shifted : span.shift cell.offset =
      ⟨(before ++ front).byteSize, (before ++ front).byteSize + name.byteSize⟩ := by
    rw [Span.shift, size, ← stop, ← start, Nat.add_assoc]
  refine ⟨Nat.le_add_right _ _, Nat.add_le_add_left h.ordered _, Nat.add_le_add_left h.within _,
    ?_, before ++ front, name ++ (back ++ behind), ?_, ?_⟩
  · rw [shifted, whole, Text.slice?_append]
  · rw [shifted, whole, Text.splitAt?_append]
  · -- more bytes than characters stand before the name
    have characters : (before ++ front).length < (before ++ front).byteSize := by
      have := front.length_le_byteSize
      rw [List.length_append, Text.byteSize_append]
      omega
    have lines := @List.count_le_length _ _ '\n' (before ++ front)
    have columns := (before ++ front).length_lastLine_le
    rw [whole, Text.byteSize_append] at fits
    rw [← size, whole, Text.location_append]
    have line : (before ++ front).endLine < 2 ^ 32 := by
      rw [Text.endLine]
      omega
    have column : (before ++ front).endColumn < 2 ^ 32 := by
      rw [Text.endColumn]
      omega
    exact ⟨Text.endLocation_line line, Text.endLocation_column column⟩

/-- A notebook that can be read is reported cell by cell, and no cell fails. Whatever is reported of
a cell lies in its code, is spelled there in the file, and has the line and the column that one
counts in the file. Macros alone are reported with an at sign that the file does not have there: as
definitions, and as locals where the macro is defined inside a scope. -/
theorem notebook_positions (file : String) (content : Text) (options : Options)
    (notebook : Notebook) (accepted : Notebook.read content = .ok notebook)
    (fits : content.byteSize < 2 ^ 32) :
    ∃ report, notebookReport file content options = .ok report ∧
      List.Forall₂ (fun (cell : Notebook.Cell) (entry : CellReport) =>
        entry.id = cell.id ∧ entry.offset = cell.offset ∧
        ∃ analysis, analyzeCell cell.code options = .ok analysis ∧
        ∃ found, entry.outcome = .ok found ∧
          found = analysis.report content cell.offset options.includeLocals ∧
          (∀ d ∈ found.definitions,
            (d.kind ≠ .macroName → cell.Shows content d.span d.location d.name) ∧
            (d.kind = .macroName →
              ∃ name, d.name = '@' :: name ∧ cell.Shows content d.span d.location name)) ∧
          (∀ o ∈ found.usages, cell.Shows content o.span o.location o.name) ∧
          ∀ locals ∈ found.locals, ∀ o ∈ locals,
            cell.Shows content o.span o.location o.name ∨
            (∃ span, o.span = span.shift cell.offset ∧ (parse cell.code).NamesMacro span) ∧
              ∃ name, o.name = '@' :: name ∧ cell.Shows content o.span o.location name)
        notebook.cells report.cells := by
  refine ⟨_, by rw [notebookReport, accepted], ?_⟩
  rw [Notebook.analyze, List.map_map, List.forall₂_map_right_iff, List.forall₂_same]
  intro cell hc
  have cut := Notebook.cell_cut accepted hc
  obtain ⟨analysis, analyzed, truthful⟩ := analyzeCell_truthful cell.code options
  refine ⟨rfl, rfl, analysis, analyzed, _, ?_, rfl, ?_, ?_, ?_⟩
  · simp only [Function.comp, CellAnalysis.report, analyzed]
  · intro d hd
    obtain ⟨entry, he, rfl⟩ := List.mem_map.mp hd
    obtain ⟨name, key, named⟩ := (truthful.definitions entry he).1
    have shown := named.shows cut fits
    constructor
    · intro hk
      rw [DefinitionKind.key_of_ne hk] at key
      rw [← key] at shown
      exact shown
    · intro hk
      exact ⟨name, key.trans (if_pos hk), shown⟩
  · intro o ho
    obtain ⟨occurrence, hu, rfl⟩ := List.mem_map.mp ho
    exact (truthful.usages occurrence hu).1.shows cut fits
  · intro locals hl o ho
    obtain ⟨_, rfl⟩ := Option.ite_some_none_eq_some.mp hl
    obtain ⟨occurrence, hu, rfl⟩ := List.mem_map.mp ho
    rcases (truthful.locals occurrence hu).1 with named | ⟨isMacro, name, key, named⟩
    · exact .inl (named.shows cut fits)
    · exact .inr ⟨⟨occurrence.span, rfl, isMacro⟩, name, key, named.shows cut fits⟩

namespace Notebook

/-- A notebook of one cell, whose code starts at byte 77. -/
def ofCode (code : Text) : Text :=
  header ++ '\n' :: (delimiter ++ (packageId '3' ++ '\n' :: code))

def greekCell : Cell := ⟨packageId '3', ['π', ' ', '=', ' ', 'x'], 77, false⟩

theorem read_greekCell : read (ofCode greekCell.code) = .ok ⟨[greekCell]⟩ := rfl

end Notebook

/-- The name that the cell reads stands at byte 82, which is the fifth character of the third line. -/
theorem greek_cell_shown :
    ∃ report, notebookReport "greek.jl" (Notebook.ofCode Notebook.greekCell.code) .standard = .ok report ∧
      ∃ entry ∈ report.cells, ∃ found, entry.outcome = .ok found ∧
        found.usages = [⟨['x'], ⟨82, 83⟩, ⟨3, 5⟩⟩] ∧
        Notebook.greekCell.Shows (Notebook.ofCode Notebook.greekCell.code) ⟨82, 83⟩ ⟨3, 5⟩ ['x'] := by
  have analyzed : analyzeCell Notebook.greekCell.code .standard =
      .ok ⟨[(['π'], ⟨.variableName, ⟨0, 2⟩⟩)], [⟨['x'], ⟨5, 6⟩⟩], []⟩ :=
    eq_ok_of_toOption (by decide +kernel)
  obtain ⟨report, reported, cells⟩ := notebook_positions "greek.jl"
    (Notebook.ofCode Notebook.greekCell.code) .standard _ Notebook.read_greekCell (by decide)
  refine ⟨report, reported, ?_⟩
  generalize report.cells = entries at cells
  cases cells with
  | cons first _ =>
    obtain ⟨_, _, analysis, same, found, outcome, shape, _, usages, _⟩ := first
    obtain rfl := Except.ok.inj (analyzed.symm.trans same)
    have listed : found.usages = [⟨['x'], ⟨82, 83⟩, ⟨3, 5⟩⟩] := by
      rw [shape]
      decide
    refine ⟨_, List.mem_cons_self, found, outcome, listed, usages ⟨['x'], ⟨82, 83⟩, ⟨3, 5⟩⟩ ?_⟩
    rw [listed]
    exact List.mem_cons_self

/-- A local that the file does not spell: a macro inside a `let` is reported with the at sign. -/
theorem nested_macro_not_shown :
    ∃ report, notebookReport "macro.jl" (Notebook.ofCode nestedMacro) .standard = .ok report ∧
      ∃ entry ∈ report.cells, ∃ found, entry.outcome = .ok found ∧
        ∃ locals ∈ found.locals, ∃ o ∈ locals,
          Text.slice? (Notebook.ofCode nestedMacro) o.span ≠ some o.name := by
  have read : Notebook.read (Notebook.ofCode nestedMacro) =
      .ok ⟨[⟨Notebook.packageId '3', nestedMacro, 77, false⟩]⟩ := rfl
  have analyzed : analyzeCell nestedMacro .standard = .ok ⟨[], [], [⟨['@', 'm'], ⟨10, 11⟩⟩]⟩ :=
    eq_ok_of_toOption (by decide +kernel)
  refine ⟨_, by rw [notebookReport, read], _, List.mem_singleton.mpr rfl,
    Analysis.report ⟨[], [], [⟨['@', 'm'], ⟨10, 11⟩⟩]⟩ (Notebook.ofCode nestedMacro) 77 true, ?_,
    [⟨['@', 'm'], ⟨87, 88⟩, ⟨4, 7⟩⟩], ?_, _, List.mem_singleton.mpr rfl, ?_⟩
  · simp only [CellAnalysis.report, analyzed]
    rfl
  · decide
  · decide

end CellBindings
