import CellBindings.Proofs.NotebookPositions

/-!
Notebooks as they are written: a header, the cells one after the other, and the order in which they
are shown. Reading gives back the cells that were written, whatever their code, as long as no line
of it starts another section and its first and last lines are not taken for marks around it. Cells
of the package environment among them leave no trace but in the offsets.
-/

namespace CellBindings

namespace Text

section Lines

/-- A text that ends a line is cut into lines on its own. -/
theorem lines_append_break (a b : Text) :
    lines (a ++ '\n' :: b) = lines (a ++ ['\n']) ++ lines b := by
  induction a with
  | nil => rfl
  | cons c cs ih =>
    by_cases newline : c = '\n'
    · simp only [List.cons_append, lines, if_pos newline, ih]
    · simp only [List.cons_append, lines, if_neg newline, ih]
      cases here : lines (cs ++ ['\n']) with
      | nil =>
        have whole := flatten_lines (cs ++ ['\n'])
        simp [here] at whole
      | cons line rest => rfl

theorem lines_append {text : Text} (h : ∀ c ∈ text.getLast?, c = '\n') (rest : Text) :
    lines (text ++ rest) = lines text ++ lines rest := by
  rcases List.eq_nil_or_concat text with rfl | ⟨front, c, rfl⟩
  · rfl
  · obtain rfl : c = '\n' := h c (by simp)
    rw [List.concat_eq_append, List.append_assoc]
    exact lines_append_break front rest

/-- A break behind a text ends its last line, or is a line of its own. -/
theorem lines_concat_break (text : Text) :
    lines (text ++ ['\n']) = lines text ++ [['\n']] ∨
      ∃ before last, lines text = before ++ [last] ∧
        lines (text ++ ['\n']) = before ++ [last ++ ['\n']] := by
  induction text with
  | nil => exact .inl rfl
  | cons c cs ih =>
    by_cases newline : c = '\n'
    · simp only [List.cons_append, lines, if_pos newline]
      rcases ih with alone | ⟨before, last, here, there⟩
      · exact .inl (by rw [alone])
      · exact .inr ⟨[c] :: before, last, by rw [here]; rfl, by rw [there]; rfl⟩
    · simp only [List.cons_append, lines, if_neg newline]
      rcases ih with alone | ⟨before, last, here, there⟩
      · rw [alone]
        cases lines cs with
        | nil => exact .inr ⟨[], [c], rfl, rfl⟩
        | cons line rest => exact .inl rfl
      · rw [here, there]
        cases before with
        | nil => exact .inr ⟨[], c :: last, rfl, rfl⟩
        | cons line rest => exact .inr ⟨(c :: line) :: rest, last, rfl, rfl⟩

/-- With a break behind a text, a line of it is one of the text, with or without the break, or the
break alone. -/
theorem line_of_concat_break {text line : Text} {i : Nat}
    (h : (lines (text ++ ['\n']))[i]? = some line) :
    line = ['\n'] ∨ ∃ old, (lines text)[i]? = some old ∧ (line = old ∨ line = old ++ ['\n']) := by
  rcases lines_concat_break text with alone | ⟨before, last, here, there⟩
  · rw [alone] at h
    by_cases inside : i < (lines text).length
    · rw [List.getElem?_append_left inside] at h
      exact .inr ⟨line, h, .inl rfl⟩
    · rw [List.getElem?_append_right (by omega)] at h
      exact .inl (List.mem_singleton.mp (List.mem_of_getElem? h))
  · rw [there] at h
    rw [here]
    by_cases inside : i < before.length
    · rw [List.getElem?_append_left inside] at h ⊢
      exact .inr ⟨line, h, .inl rfl⟩
    · rw [List.getElem?_append_right (by omega)] at h ⊢
      obtain ⟨at_end, same⟩ := List.getElem?_eq_some_iff.mp h
      obtain last_line : i - before.length = 0 := by simpa using at_end
      rw [last_line]
      exact .inr ⟨last, rfl, .inr (List.mem_singleton.mp (List.mem_of_getElem? h))⟩

end Lines

section Marks

theorem trimEnd_append_blanks {blanks : Text} (h : blanks.all isBlank = true) (text : Text) :
    trimEnd (text ++ blanks) = trimEnd text := by
  have skipped : ∀ c ∈ blanks.reverse, isBlank c = true :=
    fun c mem => List.all_eq_true.mp h c (List.mem_reverse.mp mem)
  rw [trimEnd, trimEnd, List.reverse_append, List.dropWhile_append_of_pos skipped]

theorem trimEnd_concat {c : Char} (h : isBlank c = false) (text : Text) :
    trimEnd (text ++ [c]) = text ++ [c] := by
  simp [trimEnd, h]

/-- A word is what is left of its line. -/
theorem trim_line {word : Text} (h : ∀ c ∈ word, isBlank c = false) :
    trim (word ++ ['\n']) = word := by
  rcases List.eq_nil_or_concat word with rfl | ⟨front, last, same⟩
  · rfl
  · have start : trimStart (word ++ ['\n']) = word ++ ['\n'] := by
      cases word with
      | nil => simp at same
      | cons c cs => simp [trimStart, h c List.mem_cons_self]
    have solid : isBlank last = false := h last (by simp [same])
    rw [trim, start, trimEnd_append_blanks (by decide), same, List.concat_eq_append,
      trimEnd_concat solid]

theorem dropPrefix?_append (lead rest : Text) : dropPrefix? (lead ++ rest) lead = some rest := by
  induction lead with
  | nil => cases rest <;> rfl
  | cons c lead ih => simp [dropPrefix?, ih]

theorem dropSuffix?_append (front tail : Text) : dropSuffix? (front ++ tail) tail = some front := by
  simp [dropSuffix?, dropPrefix?_append]

theorem dropSuffix?_eq_none {text tail : Text} (h : ¬ tail <:+ text) :
    dropSuffix? text tail = none := by
  cases found : dropSuffix? text tail with
  | none => rfl
  | some front => exact absurd ⟨front, (eq_append_of_dropSuffix? found).symm⟩ h

/-- A mark without a break is found in a line whether or not the break is counted in. -/
theorem prefix_concat_break {mark line : Text} (h : '\n' ∉ mark) :
    mark <+: line ++ ['\n'] ↔ mark <+: line := by
  constructor
  · intro starts
    rcases List.prefix_concat_iff.mp starts with whole | inside
    · rw [whole] at h
      simp at h
    · exact inside
  · exact fun starts => starts.trans (List.prefix_append line ['\n'])

end Marks

end Text

namespace Notebook

structure Entry where
  id : Text
  code : Text
  disabled : Bool
  deriving DecidableEq, Repr

def Cell.entry (cell : Cell) : Entry := ⟨cell.id, cell.code, cell.disabled⟩

def IsUuid (id : Text) : Prop :=
  ∃ a b c d e : Text, id = a ++ '-' :: (b ++ '-' :: (c ++ '-' :: (d ++ '-' :: e))) ∧
    a.length = 8 ∧ b.length = 4 ∧ c.length = 4 ∧ d.length = 4 ∧ e.length = 12 ∧
    ∀ x ∈ a ++ (b ++ (c ++ (d ++ e))), isHexDigit x = true

namespace Entry

def opening (entry : Entry) : Text :=
  if entry.disabled then metadata ++ (disabledMark ++ '\n' :: (commentOpening ++ ['\n'])) else []

def closing (entry : Entry) : Text :=
  if entry.disabled then ' ' :: ' ' :: (commentClosing ++ ['\n', '\n']) else ['\n']

def body (entry : Entry) : Text := entry.opening ++ (entry.code ++ '\n' :: entry.closing)

def write (entry : Entry) : Text := delimiter ++ (entry.id ++ '\n' :: entry.body)

def Contained (entry : Entry) : Prop := ∀ line ∈ Text.lines entry.code, ¬ delimiter <+: line

/-- The id is that of a cell, and the code can be told from what is written around it. -/
structure Plain (entry : Entry) : Prop where
  uuid : IsUuid entry.id
  own : entry.id ∉ packageIds
  trimmed : Text.trimEnd entry.code = entry.code
  contained : entry.Contained
  first : ∀ line ∈ (Text.lines entry.code).head?,
    ¬ metadata <+: line ∧ Text.trimEnd line ≠ commentOpening
  last : entry.disabled = false → ¬ commentClosing <:+ entry.code

end Entry

def Entry.Fills (entry : Entry) (s : Section) : Prop := s.label = entry.id ∧ s.body = entry.body

def write (entries : List Entry) (further : Text) : Text :=
  header ++ '\n' :: (entries.flatMap Entry.write ++ (delimiter ++ (orderLabel ++ '\n' :: further)))

section Ids

theorem isBlank_of_isHexDigit {c : Char} (h : isHexDigit c = true) : isBlank c = false := by
  have range : 48 ≤ c.toNat ∧ c.toNat ≤ 102 := by
    simp only [isHexDigit, Bool.or_eq_true, Bool.and_eq_true, decide_eq_true_eq, Char.le_def,
      UInt32.le_iff_toNat_le, Char.reduceVal, UInt32.reduceToNat, Char.toNat_val] at h
    omega
  simp only [isBlank, blankRanges, List.any_cons, List.any_nil, Bool.or_false, Bool.or_eq_false_iff,
    Bool.and_eq_false_iff, decide_eq_false_iff_not]
  omega

theorem IsUuid.solid {id : Text} (h : IsUuid id) : ∀ x ∈ id, isBlank x = false := by
  obtain ⟨a, b, c, d, e, rfl, -, -, -, -, -, digits⟩ := h
  have hyphen : isBlank '-' = false := by decide
  intro x mem
  by_cases own : x = '-'
  · rw [own, hyphen]
  · apply isBlank_of_isHexDigit
    apply digits
    simpa [own] using mem

/-- A group of digits at a place without hyphens. -/
theorem group_allowed {digits : Text} (place : Nat)
    (apart : ∀ i, place ≤ i → i < place + digits.length → ¬ (i = 8 ∨ i = 13 ∨ i = 18 ∨ i = 23))
    (hex : ∀ x ∈ digits, isHexDigit x = true) :
    (digits.zipIdx place).all (fun (c, i) =>
      if i = 8 ∨ i = 13 ∨ i = 18 ∨ i = 23 then c == '-' else isHexDigit c) = true := by
  rw [List.all_eq_true]
  rintro ⟨x, i⟩ mem
  obtain ⟨from_place, inside, same⟩ := List.mem_zipIdx mem
  dsimp only
  rw [if_neg (apart i from_place inside), same]
  exact hex _ (List.getElem_mem _)

theorem IsUuid.isCellId {id : Text} (h : IsUuid id) : isCellId id = true := by
  obtain ⟨a, b, c, d, e, rfl, sizeA, sizeB, sizeC, sizeD, sizeE, digits⟩ := h
  simp only [List.forall_mem_append] at digits
  obtain ⟨hexA, hexB, hexC, hexD, hexE⟩ := digits
  have first := group_allowed 0 (by omega) hexA
  have second := group_allowed 9 (by omega) hexB
  have third := group_allowed 14 (by omega) hexC
  have fourth := group_allowed 19 (by omega) hexD
  have fifth := group_allowed 24 (by omega) hexE
  simp [Notebook.isCellId, List.zipIdx_append, List.zipIdx_cons, sizeA, sizeB, sizeC, sizeD, sizeE,
    first, second, third, fourth, fifth]

theorem isUuid_packageId {last : Char} (h : isHexDigit last = true) : IsUuid (packageId last) := by
  refine ⟨List.replicate 8 '0', List.replicate 4 '0', List.replicate 4 '0', List.replicate 4 '0',
    List.replicate 11 '0' ++ [last], by simp [packageId], rfl, rfl, rfl, rfl, rfl, ?_⟩
  intro x mem
  have digit : x = '0' ∨ x = last := by simpa using mem
  rcases digit with rfl | rfl
  · decide
  · exact h

end Ids

section Sections

theorem dropPrefix?_of_not_delimiter {line : Text} (h : isDelimiter line = false) :
    Text.dropPrefix? line delimiter = none := by
  cases found : Text.dropPrefix? line delimiter with
  | none => rfl
  | some label =>
    rw [Text.eq_append_of_dropPrefix? found, isDelimiter,
      List.isPrefixOf_iff_prefix.mpr (List.prefix_append delimiter label)] at h
    cases h

/-- Lines that are no delimiters start no section. -/
theorem sectionsFrom_append (lines : List Text) (h : ∀ line ∈ lines, isDelimiter line = false)
    (number offset : Nat) (rest : List Text) :
    ∃ n place, sectionsFrom number offset (lines ++ rest) = sectionsFrom n place rest := by
  induction lines generalizing number offset with
  | nil => exact ⟨number, offset, rfl⟩
  | cons line lines ih =>
    have here := dropPrefix?_of_not_delimiter (h line List.mem_cons_self)
    simp only [List.cons_append, sectionsFrom, here]
    exact ih (fun other mem => h other (List.mem_cons_of_mem line mem)) _ _

/-- A delimiter line starts a section, which goes on to the next one. -/
theorem sectionsFrom_delimiter (label : Text) {lines rest : List Text}
    (body : ∀ line ∈ lines, isDelimiter line = false)
    (next : ∀ line ∈ rest.head?, isDelimiter line = true) (number offset : Nat) :
    ∃ start n place, sectionsFrom number offset ((delimiter ++ label) :: (lines ++ rest)) =
      ⟨number, label.trim, start, lines.flatten⟩ :: sectionsFrom n place rest := by
  have ends : rest.takeWhile (!isDelimiter ·) = [] := by
    cases rest with
    | nil => rfl
    | cons line rest => simp [next line rfl]
  have whole : (lines ++ rest).takeWhile (!isDelimiter ·) = lines := by
    rw [List.takeWhile_append_of_pos (by simpa using body), ends, List.append_nil]
  simp only [sectionsFrom, Text.dropPrefix?_append, whole]
  obtain ⟨n, place, later⟩ := sectionsFrom_append lines body (number + 1)
    (offset + Text.byteSize (delimiter ++ label)) rest
  exact ⟨_, n, place, by rw [later]⟩

end Sections

namespace Entry

variable {entry : Entry}

/-- The lines of the body: those before the code, those of the code, and those behind it. -/
theorem lines_body (entry : Entry) :
    Text.lines entry.body = Text.lines entry.opening ++
      (Text.lines (entry.code ++ ['\n']) ++ Text.lines entry.closing) := by
  have last : entry.opening.getLast?.all (· == '\n') = true := by
    unfold opening
    cases entry.disabled <;> decide
  have opens : ∀ c ∈ entry.opening.getLast?, c = '\n' := by
    intro c mem
    simpa [Option.mem_def.mp mem] using last
  rw [body, Text.lines_append opens, Text.lines_append_break]

/-- The body ends with its last line. -/
theorem lines_body_append (entry : Entry) (rest : Text) :
    Text.lines (entry.body ++ rest) = Text.lines entry.body ++ Text.lines rest := by
  have closes : ∃ front, entry.closing = front ++ ['\n'] := by
    unfold closing
    cases entry.disabled with
    | false => exact ⟨[], rfl⟩
    | true => exact ⟨' ' :: ' ' :: (commentClosing ++ ['\n']), rfl⟩
  obtain ⟨front, split⟩ := closes
  apply Text.lines_append
  rw [body, split, ← List.cons_append, ← List.append_assoc, ← List.append_assoc,
    List.getLast?_concat]
  rintro c ⟨⟩
  rfl

/-- No line of the body starts a section. -/
theorem not_delimiter_of_mem_body (h : entry.Contained) :
    ∀ line ∈ Text.lines entry.body, isDelimiter line = false := by
  have around : ∀ line ∈ Text.lines entry.opening ++ Text.lines entry.closing,
      isDelimiter line = false := by
    unfold opening closing
    cases entry.disabled <;> decide
  have inside : ∀ line ∈ Text.lines (entry.code ++ ['\n']), ¬ delimiter <+: line := by
    intro line mem
    obtain ⟨i, here⟩ := List.getElem?_of_mem mem
    rcases Text.line_of_concat_break here with rfl | ⟨old, there, rfl | rfl⟩
    · decide
    · exact h _ (List.mem_of_getElem? there)
    · rw [Text.prefix_concat_break (by decide)]
      exact h _ (List.mem_of_getElem? there)
  intro line mem
  rw [lines_body, List.mem_append, List.mem_append] at mem
  rcases mem with mem | mem | mem
  · exact around line (List.mem_append_left _ mem)
  · have free := inside line mem
    rwa [← List.isPrefixOf_iff_prefix, Bool.not_eq_true] at free
  · exact around line (List.mem_append_right _ mem)

/-- The first line behind the opening is that of the code, or empty. -/
theorem not_preamble_of_code (h : entry.Plain) :
    ∀ line ∈ (Text.lines (entry.code ++ ['\n'])).head?, isPreamble line = false := by
  have plain {line : Text} (marked : ¬ metadata <+: line) (opening : line.trimEnd ≠ commentOpening) :
      isPreamble line = false := by
    rw [← List.isPrefixOf_iff_prefix, Bool.not_eq_true] at marked
    simp [isPreamble, marked, opening]
  intro line mem
  rw [List.head?_eq_getElem?] at mem
  rcases Text.line_of_concat_break mem with rfl | ⟨old, there, rfl | rfl⟩
  · decide
  · rw [← List.head?_eq_getElem?] at there
    exact plain (h.first _ there).1 (h.first _ there).2
  · rw [← List.head?_eq_getElem?] at there
    apply plain
    · rw [Text.prefix_concat_break (by decide)]
      exact (h.first old there).1
    · rw [Text.trimEnd_append_blanks (by decide)]
      exact (h.first old there).2

theorem preamble_eq (h : entry.Plain) :
    (Text.lines entry.body).takeWhile isPreamble = Text.lines entry.opening ∧
      (Text.lines entry.body).dropWhile isPreamble =
        Text.lines (entry.code ++ ['\n']) ++ Text.lines entry.closing := by
  have opens : ∀ line ∈ Text.lines entry.opening, isPreamble line = true := by
    unfold opening
    cases entry.disabled <;> decide
  rw [lines_body, List.takeWhile_append_of_pos opens, List.dropWhile_append_of_pos opens]
  have first := not_preamble_of_code h
  cases code : Text.lines (entry.code ++ ['\n']) with
  | nil =>
    have lost := Text.flatten_lines (entry.code ++ ['\n'])
    simp [code] at lost
  | cons line lines =>
    rw [code] at first
    simp [first line rfl]

/-- What is left of the body behind the opening, without the mark that closes it, is the code. -/
theorem code_eq (h : entry.Plain) :
    ((Text.dropSuffix? (Text.trimEnd (entry.code ++ '\n' :: entry.closing)) commentClosing).map
      Text.trimEnd).getD (Text.trimEnd (entry.code ++ '\n' :: entry.closing)) = entry.code := by
  cases disabled : entry.disabled with
  | false =>
    have rest : Text.trimEnd (entry.code ++ '\n' :: entry.closing) = entry.code := by
      rw [closing, disabled, Text.trimEnd_append_blanks (by decide), h.trimmed]
    rw [rest, Text.dropSuffix?_eq_none (h.last disabled)]
    rfl
  | true =>
    have rest : Text.trimEnd (entry.code ++ '\n' :: entry.closing) =
        (entry.code ++ ['\n', ' ', ' ']) ++ commentClosing := by
      have split : entry.code ++ '\n' :: entry.closing =
          ((entry.code ++ ['\n', ' ', ' ', '╠', '═', '╡', ' ', '=']) ++ ['#']) ++ ['\n', '\n'] := by
        simp [closing, disabled, commentClosing]
      rw [split, Text.trimEnd_append_blanks (by decide), Text.trimEnd_concat (by decide)]
      simp [commentClosing]
    rw [rest, Text.dropSuffix?_append, Option.map_some, Option.getD_some,
      Text.trimEnd_append_blanks (by decide), h.trimmed]

/-- The cell of a section is what is written in it. -/
theorem entry_cell (h : entry.Plain) {s : Section} (fills : entry.Fills s) :
    s.cell.entry = entry := by
  obtain ⟨label, body⟩ := fills
  obtain ⟨before, behind⟩ := preamble_eq h
  have mark : (Text.lines entry.opening).any isDisabledMark = entry.disabled := by
    unfold opening
    cases entry.disabled <;> decide
  have rest : (Text.lines (entry.code ++ ['\n']) ++ Text.lines entry.closing).flatten =
      entry.code ++ '\n' :: entry.closing := by
    simp
  simp only [Section.cell, Cell.entry, body, before, behind, rest, code_eq h, mark, label]

end Entry

section Written

variable {entries : List Entry}

theorem IsUuid.no_break {id : Text} (h : IsUuid id) : '\n' ∉ id := by
  intro mem
  have solid := h.solid '\n' mem
  revert solid
  decide

theorem lines_delimiter {label : Text} (h : '\n' ∉ label) (rest : Text) :
    Text.lines (delimiter ++ (label ++ '\n' :: rest)) =
      (delimiter ++ (label ++ ['\n'])) :: Text.lines rest := by
  have line : '\n' ∉ delimiter ++ label := by
    simp only [List.mem_append, h, or_false]
    decide
  rw [← List.append_assoc, Text.lines_line line, List.append_assoc]

/-- Every entry is followed by a delimiter line: that of the next one, or that of the order. -/
theorem written_front (h : ∀ entry ∈ entries, IsUuid entry.id) (further : Text) :
    ∀ line ∈ (Text.lines (entries.flatMap Entry.write ++
      (delimiter ++ (orderLabel ++ '\n' :: further)))).head?, isDelimiter line = true := by
  have starts {label : Text} (free : '\n' ∉ label) (rest : Text) :
      ∀ line ∈ (Text.lines (delimiter ++ (label ++ '\n' :: rest))).head?,
        isDelimiter line = true := by
    rw [lines_delimiter free]
    rintro line ⟨⟩
    exact List.isPrefixOf_iff_prefix.mpr (List.prefix_append _ _)
  cases entries with
  | nil => exact starts (by decide) further
  | cons entry entries =>
    simp only [List.flatMap_cons, Entry.write, List.append_assoc, List.cons_append]
    exact starts (h entry List.mem_cons_self).no_break _

/-- The entries are the first sections of what is written, by induction on them, and the order of
cells is the next one. -/
theorem sectionsFrom_written (h : ∀ entry ∈ entries, IsUuid entry.id ∧ entry.Contained)
    (further : Text) (number offset : Nat) :
    ∃ sections order later,
      sectionsFrom number offset (Text.lines (entries.flatMap Entry.write ++
        (delimiter ++ (orderLabel ++ '\n' :: further)))) = sections ++ order :: later ∧
      order.label = orderLabel ∧
      List.Forall₂ Entry.Fills entries sections := by
  induction entries generalizing number offset with
  | nil =>
    have label : Text.trim (orderLabel ++ ['\n']) = orderLabel := by decide
    rw [List.flatMap_nil, List.nil_append, lines_delimiter (by decide)]
    simp only [sectionsFrom, Text.dropPrefix?_append, label]
    exact ⟨[], _, _, rfl, rfl, .nil⟩
  | cons entry entries ih =>
    obtain ⟨uuid, contained⟩ := h entry List.mem_cons_self
    have others : ∀ other ∈ entries, IsUuid other.id ∧ other.Contained :=
      fun other mem => h other (List.mem_cons_of_mem entry mem)
    have front := written_front (fun other mem => (others other mem).1) further
    simp only [List.flatMap_cons, Entry.write, List.append_assoc, List.cons_append]
    rw [lines_delimiter uuid.no_break, entry.lines_body_append]
    obtain ⟨start, n, place, section_first⟩ := sectionsFrom_delimiter (entry.id ++ ['\n'])
      (Entry.not_delimiter_of_mem_body contained) front number offset
    obtain ⟨sections, order, later, split, label, same⟩ := ih others n place
    rw [section_first, split]
    refine ⟨_ :: sections, order, later, rfl, label, .cons ⟨?_, ?_⟩ same⟩
    · exact Text.trim_line uuid.solid
    · exact Text.flatten_lines entry.body

/-- The cells of sections are the entries of the sections, those of packages left out. -/
theorem entries_of_sections {sections : List Section}
    (same : List.Forall₂ Entry.Fills entries sections)
    (plain : ∀ entry ∈ entries, entry.id ∉ packageIds → entry.Plain) :
    ((sections.map Section.cell).filter fun cell => !packageIds.contains cell.id).map Cell.entry =
      entries.filter (·.id ∉ packageIds) := by
  induction same with
  | nil => rfl
  | @cons entry s entries sections here _ ih =>
    have later := ih fun other mem => plain other (List.mem_cons_of_mem entry mem)
    have id : s.cell.id = entry.id := here.1
    by_cases package : entry.id ∈ packageIds
    · simpa [id, package] using later
    · have cell := Entry.entry_cell (plain entry List.mem_cons_self package) here
      simpa [id, package, cell] using later

theorem uuid_of_sections {sections : List Section}
    (same : List.Forall₂ Entry.Fills entries sections)
    (h : ∀ entry ∈ entries, IsUuid entry.id) : ∀ s ∈ sections, IsUuid s.label := by
  induction same with
  | nil => simp
  | cons here _ ih =>
    obtain ⟨first, others⟩ := List.forall_mem_cons.mp h
    rw [← here.1] at first
    exact List.forall_mem_cons.mpr ⟨first, ih others⟩

theorem isNotebook_write (entries : List Entry) (further : Text) :
    isNotebook (write entries further) = true := by
  have inLine : ∀ c ∈ header, (c != '\n') = true := List.all_eq_true.mp (by decide)
  have trimmed : Text.trimEnd header = header := by decide
  have unmarked (rest : Text) : (header ++ rest).dropWhile (· == '\ufeff') = header ++ rest := rfl
  rw [isNotebook, write, unmarked, List.takeWhile_append_of_pos inLine]
  simp [trimmed]

theorem cellSections_write (h : ∀ entry ∈ entries, IsUuid entry.id ∧ entry.Contained)
    (further : Text) :
    List.Forall₂ Entry.Fills entries (cellSections (write entries further)) := by
  obtain ⟨number, offset, skipped⟩ := sectionsFrom_append [header ++ ['\n']]
    (by decide) 1 0 (Text.lines (entries.flatMap Entry.write ++
      (delimiter ++ (orderLabel ++ '\n' :: further))))
  obtain ⟨sections, order, later, split, label, same⟩ := sectionsFrom_written h further number offset
  have cells : ∀ s ∈ sections, (s.label != orderLabel) = true := by
    intro s mem
    have solid := (uuid_of_sections same (fun entry mem => (h entry mem).1) s mem).solid ' '
    rw [bne_iff_ne]
    intro order
    rw [order] at solid
    revert solid
    decide
  rw [cellSections, write, Text.lines_line (by decide), ← List.singleton_append, skipped, split,
    List.takeWhile_append_of_pos cells, List.takeWhile_cons_of_neg (by simp [label]),
    List.append_nil]
  exact same

/-- Whatever is written is read again, but for the cells of packages. -/
theorem read_write (h : ∀ entry ∈ entries, IsUuid entry.id ∧ entry.Contained)
    (plain : ∀ entry ∈ entries, entry.id ∉ packageIds → entry.Plain) (further : Text) :
    ∃ notebook, read (write entries further) = .ok notebook ∧
      notebook.cells.map Cell.entry = entries.filter (·.id ∉ packageIds) := by
  have sections := cellSections_write h further
  have uuids := uuid_of_sections sections fun entry mem => (h entry mem).1
  have labelled : (cellSections (write entries further)).find? (!isCellId ·.label) = none := by
    apply List.find?_eq_none.mpr
    intro s mem
    simp [(uuids s mem).isCellId]
  refine ⟨_, ?_, entries_of_sections sections plain⟩
  simp only [read, isNotebook_write, labelled, Bool.not_true, Bool.false_eq_true, if_false]

end Written

/-- The cells that are written in a notebook are read from it, in order and with the same ids, code
and disabled flags, whatever stands behind the order of cells. Cells of packages put anywhere among
them, with any code that starts no section, change nothing of this. -/
theorem written_cells_read (entries mixed : List Entry) (further : Text)
    (plain : ∀ entry ∈ entries, entry.Plain)
    (inserted : mixed.filter (·.id ∉ packageIds) = entries)
    (packages : ∀ entry ∈ mixed, entry.id ∈ packageIds → entry.Contained) :
    (∃ notebook, read (write entries further) = .ok notebook ∧
      notebook.cells.map Cell.entry = entries) ∧
    ∃ notebook, read (write mixed further) = .ok notebook ∧
      notebook.cells.map Cell.entry = entries := by
  have own : entries.filter (·.id ∉ packageIds) = entries :=
    List.filter_eq_self.mpr fun entry mem => decide_eq_true (plain entry mem).own
  have kept : ∀ entry ∈ mixed, entry.id ∉ packageIds → entry.Plain := by
    intro entry mem notPackage
    apply plain
    rw [← inserted]
    exact List.mem_filter.mpr ⟨mem, decide_eq_true notPackage⟩
  constructor
  · obtain ⟨notebook, found, cells⟩ := read_write
      (fun entry mem => ⟨(plain entry mem).uuid, (plain entry mem).contained⟩)
      (fun entry mem _ => plain entry mem) further
    exact ⟨notebook, found, cells.trans own⟩
  · have sound : ∀ entry ∈ mixed, IsUuid entry.id ∧ entry.Contained := by
      intro entry mem
      by_cases package : entry.id ∈ packageIds
      · refine ⟨?_, packages entry mem package⟩
        have ids : entry.id = packageId '1' ∨ entry.id = packageId '2' := by
          simpa [packageIds] using package
        rcases ids with same | same
        · rw [same]
          exact isUuid_packageId (by decide)
        · rw [same]
          exact isUuid_packageId (by decide)
      · exact ⟨(kept entry mem package).uuid, (kept entry mem package).contained⟩
    obtain ⟨notebook, found, cells⟩ := read_write sound kept further
    exact ⟨notebook, found, cells.trans inserted⟩

/-- A cell that starts with an empty line and has box drawings in its last one. -/
def boxEntry : Entry :=
  ⟨packageId '3', ['\n', 'π', '\r', '\n', '#', ' ', '╔', '═', '╡'], false⟩

def closedEntry : Entry := ⟨packageId '4', ['x', '\n', '╠', '═', '╡', ' ', '=', '#'], true⟩

def packageEntry : Entry := ⟨packageId '1', ['#', '=', '╠', '═', '╡', '\n', ' '], false⟩

/-- Both are read, with the packages between them and a section without an id behind the order. -/
theorem box_and_closed_read :
    (boxEntry.Plain ∧ closedEntry.Plain ∧ packageEntry.Contained) ∧
    ∃ notebook, read (write [boxEntry, packageEntry, closedEntry] delimiter) = .ok notebook ∧
      notebook.cells.map Cell.entry = [boxEntry, closedEntry] := by
  have box : boxEntry.Plain :=
    ⟨isUuid_packageId (by decide), by decide, by decide, by unfold Entry.Contained; decide, by decide,
      fun _ => by decide⟩
  have closed : closedEntry.Plain :=
    ⟨isUuid_packageId (by decide), by decide, by decide, by unfold Entry.Contained; decide, by decide,
      fun h => by cases h⟩
  have package : packageEntry.Contained := by unfold Entry.Contained; decide
  refine ⟨⟨box, closed, package⟩, ?_⟩
  apply (written_cells_read [boxEntry, closedEntry] [boxEntry, packageEntry, closedEntry] delimiter
    ?_ ?_ ?_).2
  · simp [box, closed]
  · decide
  · intro entry mem inPackage
    rcases List.mem_cons.mp mem with rfl | mem
    · exact box.contained
    rcases List.mem_cons.mp mem with rfl | mem
    · exact package
    · rw [List.mem_singleton.mp mem]
      exact closed.contained

end Notebook

end CellBindings
