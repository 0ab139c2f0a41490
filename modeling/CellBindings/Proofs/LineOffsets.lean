import CellBindings.Proofs.LineSearch

/-!
From lines and columns back to offsets. The line breaks of a text cut it into rows, and the index of
line starts knows where each row begins. A column counts characters of its row, so an offset and its
location determine each other wherever the text can be cut, and offsets in order have locations in
order, as long as lines and columns fit in a location.
-/

namespace CellBindings

/-- Locations are in order line by line, and inside a line column by column. -/
instance : LE Location :=
  ⟨fun a b => a.line < b.line ∨ a.line = b.line ∧ a.column ≤ b.column⟩

instance : LT Location :=
  ⟨fun a b => a.line < b.line ∨ a.line = b.line ∧ a.column < b.column⟩

namespace Text

/-- The lines of a text without their breaks; a break at the end opens an empty last row. -/
def rows (text : Text) : List Text := text.splitOn '\n'

structure RowAt (text before row after : Text) : Prop where
  split : text = before ++ (row ++ after)
  begins : before = [] ∨ ∃ lines, before = lines ++ ['\n']
  unbroken : '\n' ∉ row
  ends : after = [] ∨ ∃ rest, after = '\n' :: rest

variable {text front mid before row piece after : Text} {n : Nat}

theorem RowAt.slice (h : text.RowAt before row after) :
    text.slice? ⟨before.byteSize, before.byteSize + row.byteSize⟩ = some row := by
  rw [h.split]
  exact slice?_append before row after

/-- A text has at least as many bytes as characters in a row, or as breaks before it. -/
theorem RowAt.within (h : text.RowAt before row after) :
    before.count '\n' ≤ text.byteSize ∧ row.length ≤ text.byteSize := by
  have lines : before.count '\n' ≤ before.length := List.count_le_length
  have := before.length_le_byteSize
  have := row.length_le_byteSize
  rw [h.split, byteSize_append, byteSize_append]
  omega

theorem length_rows (text : Text) : text.rows.length = text.count '\n' + 1 := by
  induction text with
  | nil => rfl
  | cons c cs ih =>
    rw [rows] at ih ⊢
    rw [List.splitOn_cons_eq_if_modifyHead]
    by_cases newline : c = '\n' <;> simp [newline, ih]

/-- Every row is found in the text, behind as many breaks as there are rows before it. -/
theorem exists_rowAt (h : text.rows[n]? = some row) :
    ∃ before after, text.RowAt before row after ∧ before.count '\n' = n := by
  induction text generalizing n row with
  | nil =>
    cases n with
    | zero =>
      obtain rfl : [] = row := Option.some.inj h
      exact ⟨[], [], ⟨rfl, .inl rfl, by simp, .inl rfl⟩, rfl⟩
    | succ n => simp [rows] at h
  | cons c cs ih =>
    rw [rows, List.splitOn_cons_eq_if_modifyHead] at h
    by_cases newline : c = '\n'
    · subst newline
      rw [if_pos (beq_self_eq_true _)] at h
      cases n with
      | zero =>
        obtain rfl : [] = row := Option.some.inj h
        exact ⟨[], '\n' :: cs, ⟨rfl, .inl rfl, by simp, .inr ⟨cs, rfl⟩⟩, rfl⟩
      | succ n =>
        obtain ⟨before, after, found, count⟩ := ih h
        refine ⟨'\n' :: before, after, ⟨by rw [found.split]; rfl, ?_, found.unbroken, found.ends⟩,
          by simp [count]⟩
        rcases found.begins with rfl | ⟨lines, rfl⟩
        · exact .inr ⟨[], rfl⟩
        · exact .inr ⟨'\n' :: lines, rfl⟩
    · rw [if_neg (by simpa using newline)] at h
      obtain ⟨first, rest, cut⟩ := List.exists_cons_of_ne_nil (List.splitOn_ne_nil '\n' cs)
      rw [cut, List.modifyHead_cons] at h
      cases n with
      | zero =>
        obtain rfl : c :: first = row := Option.some.inj h
        obtain ⟨before, after, found, count⟩ := @ih first 0 (by rw [rows, cut]; rfl)
        -- nothing stands before the first row
        obtain rfl : before = [] := by
          rcases found.begins with none | ⟨lines, rfl⟩
          · exact none
          · simp at count
        refine ⟨[], after, ⟨by rw [found.split]; rfl, .inl rfl, ?_, found.ends⟩, rfl⟩
        simpa [Ne.symm newline] using found.unbroken
      | succ n =>
        obtain ⟨before, after, found, count⟩ := @ih row (n + 1) (by rw [rows, cut]; exact h)
        refine ⟨c :: before, after, ⟨by rw [found.split]; rfl, ?_, found.unbroken, found.ends⟩,
          by simp [newline, count]⟩
        rcases found.begins with rfl | ⟨lines, rfl⟩
        · simp at count
        · exact .inr ⟨c :: lines, rfl⟩

/-- The row that a cut stands in. -/
theorem exists_rowAt_cut (front back : Text) :
    ∃ before rest after, front = before ++ front.lastLine ∧
      (front ++ back).RowAt before (front.lastLine ++ rest) after := by
  obtain ⟨before, split, begins⟩ := front.eq_append_lastLine
  refine ⟨before, back.takeWhile (· != '\n'), back.dropWhile (· != '\n'), split, ?_, begins, ?_, ?_⟩
  · rw [List.append_assoc, List.takeWhile_append_dropWhile, ← List.append_assoc, ← split]
  · rw [List.mem_append, not_or]
    refine ⟨front.not_mem_lastLine, fun mem => ?_⟩
    have inRow := List.all_eq_true.mp List.all_takeWhile '\n' mem
    simp at inRow
  · cases rest : back.dropWhile (· != '\n') with
    | nil => exact .inl rfl
    | cons c cs =>
      have stop := List.head?_dropWhile_not (· != '\n') back
      rw [rest] at stop
      have newline : c = '\n' := by simpa using stop
      exact .inr ⟨cs, by rw [newline]⟩

theorem endLine_append (unbroken : '\n' ∉ piece) :
    (before ++ piece).endLine = before.count '\n' + 1 := by
  rw [endLine, List.count_append, List.count_eq_zero.mpr unbroken, Nat.add_comm 1, Nat.add_zero]

theorem endColumn_append (begins : before = [] ∨ ∃ lines, before = lines ++ ['\n'])
    (unbroken : '\n' ∉ piece) : (before ++ piece).endColumn = piece.length + 1 := by
  rw [endColumn, lastLine_append begins unbroken, Nat.add_comm]

/-- Every further character moves the end of a text on. -/
theorem end_lt_append (more : mid ≠ []) :
    front.endLine < (front ++ mid).endLine ∨
      front.endLine = (front ++ mid).endLine ∧ front.endColumn < (front ++ mid).endColumn := by
  by_cases broken : '\n' ∈ mid
  · have := List.count_pos_iff.mpr broken
    refine .inl ?_
    simp only [endLine, List.count_append]
    omega
  · obtain ⟨before, split, begins⟩ := front.eq_append_lastLine
    have unbroken : '\n' ∉ front.lastLine ++ mid := by
      rw [List.mem_append, not_or]
      exact ⟨front.not_mem_lastLine, broken⟩
    have further := endColumn_append begins unbroken
    rw [← List.append_assoc, ← split, List.length_append] at further
    have := List.length_pos_iff.mpr more
    refine .inr ⟨?_, ?_⟩
    · rw [endLine, endLine, List.count_append, List.count_eq_zero.mpr broken, Nat.add_zero]
    · rw [further, endColumn]
      omega

/-- The order is kept where the numbers fit. -/
theorem endLocation_lt_append (more : mid ≠ []) (fits : (front ++ mid).byteSize + 1 < 2 ^ 32) :
    front.endLocation < (front ++ mid).endLocation := by
  have fits' : front.byteSize + 1 < 2 ^ 32 := by
    rw [byteSize_append] at fits
    omega
  obtain ⟨line, column⟩ := endLocation_exact fits
  obtain ⟨line', column'⟩ := endLocation_exact fits'
  rcases end_lt_append more with less | ⟨same, less⟩
  · refine .inl (UInt32.lt_iff_toNat_lt.mpr ?_)
    rw [line, line']
    exact less
  · refine .inr ⟨UInt32.toNat_inj.mp ?_, UInt32.lt_iff_toNat_lt.mpr ?_⟩
    · rw [line, line', same]
    · rw [column, column']
      exact less

/-- The earlier of two cuts is a cut of the later front part. -/
theorem cut_of_cuts {front back front' back' : Text} (same : front ++ back = front' ++ back')
    (order : front.byteSize ≤ front'.byteSize) : ∃ mid, front' = front ++ mid := by
  rcases List.append_eq_append_iff.mp same with ⟨mid, later, -⟩ | ⟨mid, earlier, -⟩
  · exact ⟨mid, later⟩
  · have none : mid = [] := by
      apply List.eq_nil_of_length_eq_zero
      have := length_le_byteSize mid
      rw [earlier, byteSize_append] at order
      omega
    exact ⟨[], by rw [earlier, none, List.append_nil, List.append_nil]⟩

end Text

namespace LineIndex

variable {text before row after : Text} {line : Nat}

theorem lineCount_eq (text : Text) : (ofText text).lineCount = text.rows.length := by
  rw [Text.length_rows, lineCount, ofText, List.length_cons, length_breaks]

/-- The starts up to a row, and those behind it. -/
theorem starts_of_row (h : text.RowAt before row after) :
    (ofText text).starts =
      (0 :: breaks 0 before) ++ breaks (before.byteSize + row.byteSize) after := by
  rw [ofText, h.split, breaks_append, breaks_append, breaks_eq_nil h.unbroken, List.nil_append,
    Nat.zero_add]
  rfl

theorem length_begun (before : Text) :
    (0 :: breaks 0 before).length = before.count '\n' + 1 := by
  rw [List.length_cons, length_breaks]

/-- A line has as many breaks before it as lines; zero is taken for the first. -/
theorem lineStart?_of_row (h : text.RowAt before row after)
    (number : before.count '\n' = line - 1) :
    (ofText text).lineStart? line = some before.byteSize := by
  have last := @getLastD_breaks before [] h.begins (by simp)
  rw [List.append_nil, List.getLastD_eq_getLast?, List.getLast?_eq_getElem?, length_begun,
    Nat.add_sub_cancel] at last
  have inside : before.count '\n' < (0 :: breaks 0 before).length := by
    rw [length_begun]
    omega
  rw [List.getElem?_eq_getElem inside, Option.getD_some] at last
  rw [lineStart?, starts_of_row h, ← number, List.getElem?_append_left inside,
    List.getElem?_eq_getElem inside, last]

/-- A row ends right before the next start, or with the text. -/
theorem rowStop_of_row (h : text.RowAt before row after) :
    ((ofText text).starts[before.count '\n' + 1]?).elim text.byteSize (· - 1) =
      before.byteSize + row.byteSize := by
  have behind : (0 :: breaks 0 before).length ≤ before.count '\n' + 1 :=
    Nat.le_of_eq (length_begun before)
  rw [starts_of_row h, List.getElem?_append_right behind, length_begun, Nat.sub_self]
  rcases h.ends with rfl | ⟨rest, rfl⟩
  · rw [h.split]
    simp [breaks]
  · have newline : '\n'.utf8Size = 1 := rfl
    simp [breaks, newline]

/-- The offset of a column is where its row is cut behind that many characters. -/
theorem offset_of_row (h : text.RowAt before row after) (number : before.count '\n' = line - 1)
    (column : Nat) :
    (ofText text).offset text line column =
      before.byteSize + Text.byteSize (row.take (column - 1)) := by
  have next : max line 1 = before.count '\n' + 1 := by omega
  simp only [offset, lineStart?_of_row h number, next, rowStop_of_row h, h.slice, Option.getD_some]

/-- The location of a cut leads back to it. -/
theorem offset_end (front back : Text) :
    (ofText (front ++ back)).offset (front ++ back) front.endLine front.endColumn =
      front.byteSize := by
  obtain ⟨before, rest, after, split, row⟩ := Text.exists_rowAt_cut front back
  have line := @Text.endLine_append before _ front.not_mem_lastLine
  have size := congrArg Text.byteSize split
  rw [← split] at line
  rw [Text.byteSize_append] at size
  rw [line, offset_of_row row rfl, Text.endColumn, Nat.add_sub_cancel_left, List.take_left, ← size]

/-- A column of a row is the location of its offset. -/
theorem location_offset (h : text.RowAt before row after)
    (number : before.count '\n' = line - 1) {column : Nat} (counted : 1 ≤ line)
    (first : 1 ≤ column) (last : column ≤ row.length + 1) :
    text.location ((ofText text).offset text line column) = ⟨.ofNat line, .ofNat column⟩ := by
  have unbroken : '\n' ∉ row.take (column - 1) := fun mem => h.unbroken (List.mem_of_mem_take mem)
  have cut : text = (before ++ row.take (column - 1)) ++ (row.drop (column - 1) ++ after) := by
    rw [List.append_assoc, ← List.append_assoc (row.take _), List.take_append_drop, h.split]
  have found := Text.location_append (before ++ row.take (column - 1))
    (row.drop (column - 1) ++ after)
  rw [← cut, Text.byteSize_append, Text.endLocation, Text.endLine_append unbroken,
    Text.endColumn_append h.begins unbroken, List.length_take] at found
  rw [offset_of_row h number, found]
  congr 2 <;> omega

end LineIndex

namespace Text

variable {content : Text} {a b : Nat}

theorem boundaryBefore_mono (order : a ≤ b) : content.boundaryBefore a ≤ content.boundaryBefore b :=
  (isBoundary_iff.mpr (content.boundaryBefore_cut a)).le_boundaryBefore
    (Nat.le_trans (content.boundaryBefore_le a) order)

theorem location_le (fits : content.byteSize + 1 < 2 ^ 32) (order : a ≤ b) :
    content.location a ≤ content.location b := by
  obtain ⟨front, back, rfl, place⟩ := content.boundaryBefore_cut a
  obtain ⟨front', back', same, place'⟩ := (front ++ back).boundaryBefore_cut b
  have clamped := @boundaryBefore_mono (front ++ back) a b order
  obtain ⟨mid, rfl⟩ := cut_of_cuts same (by omega)
  rw [location_of_cut place]
  rw [same] at place' fits ⊢
  rw [location_of_cut place']
  by_cases more : mid = []
  · rw [more, List.append_nil]
    exact .inr ⟨rfl, UInt32.le_refl _⟩
  · rw [byteSize_append] at fits
    rcases @endLocation_lt_append front mid more (by omega) with line | ⟨line, column⟩
    · exact .inl line
    · exact .inr ⟨line, UInt32.le_of_lt column⟩

theorem location_lt (fits : content.byteSize + 1 < 2 ^ 32) (cut : content.IsBoundary a)
    (cut' : content.IsBoundary b) (order : a < b) : content.location a < content.location b := by
  obtain ⟨front, back, rfl, rfl⟩ := isBoundary_iff.mp cut
  obtain ⟨front', back', same, rfl⟩ := isBoundary_iff.mp cut'
  obtain ⟨mid, rfl⟩ := cut_of_cuts same (by omega)
  have more : mid ≠ [] := by
    rintro rfl
    rw [List.append_nil] at order
    omega
  rw [location_append]
  rw [same] at fits ⊢
  rw [byteSize_append] at fits
  rw [location_append]
  exact endLocation_lt_append more (by omega)

end Text

/-- Offsets and locations are inverse and in the same order, in a text of fewer than 2 ^ 32 - 1
bytes. An offset comes back from its location as the last place before it, and before the end of the
text, where the text can be cut. Every column of a row, and the one behind its last character, comes
back from its offset. Later offsets never have earlier locations, and different places where the
text can be cut have different ones. A column behind its row stands for the end of the row, a line
behind the last one for the end of the text, and zero for one. -/
theorem offsets_locations_inverse (content : Text) (fits : content.byteSize + 1 < 2 ^ 32) :
    let index := LineIndex.ofText content
    index.lineCount = content.rows.length ∧
    (∀ offset, ∃ place, content.IsBoundary place ∧ place ≤ min offset content.byteSize ∧
      (∀ other, content.IsBoundary other → other ≤ min offset content.byteSize → other ≤ place) ∧
      index.offset content (index.location content offset).line
        (index.location content offset).column = place) ∧
    (∀ line row column, 1 ≤ line → content.rows[line - 1]? = some row →
      1 ≤ column → column ≤ row.length + 1 →
      line < 2 ^ 32 ∧ column < 2 ^ 32 ∧
      index.location content (index.offset content line column) =
        ⟨.ofNat line, .ofNat column⟩) ∧
    (∀ a b, a ≤ b → index.location content a ≤ index.location content b) ∧
    (∀ a b, content.IsBoundary a → content.IsBoundary b → a < b →
      index.location content a < index.location content b) ∧
    (∀ line row column, content.rows[line - 1]? = some row → row.length < column →
      ∃ start, index.lineStart? line = some start ∧
        content.slice? ⟨start, start + row.byteSize⟩ = some row ∧
        index.offset content line column = start + row.byteSize) ∧
    (∀ line column, index.lineCount < line → index.offset content line column = content.byteSize) ∧
    ∀ n, index.offset content 0 n = index.offset content 1 n ∧
      index.offset content n 0 = index.offset content n 1 := by
  refine ⟨LineIndex.lineCount_eq content, ?_, ?_, fun a b => Text.location_le fits,
    fun a b => Text.location_lt fits, ?_, ?_, fun n => ⟨rfl, rfl⟩⟩
  · intro offset
    obtain ⟨front, back, rfl, place⟩ := content.boundaryBefore_cut offset
    have found : (LineIndex.ofText (front ++ back)).location (front ++ back) offset =
        front.endLocation := Text.location_of_cut place
    have clamped := (front ++ back).boundaryBefore_le offset
    have inside : (front ++ back).IsBoundary front.byteSize :=
      Text.isBoundary_iff.mpr ⟨front, back, rfl, rfl⟩
    have within := inside.le_byteSize
    refine ⟨front.byteSize, inside, by omega, ?_, ?_⟩
    · intro other boundary before
      rw [place]
      exact boundary.le_boundaryBefore (by omega)
    · rw [Text.byteSize_append] at fits
      obtain ⟨line, column⟩ := @Text.endLocation_exact front (by omega)
      rw [found, line, column]
      exact LineIndex.offset_end front back
  · intro line row column counted there first last
    obtain ⟨before, after, found, count⟩ := Text.exists_rowAt there
    obtain ⟨lines, columns⟩ := found.within
    refine ⟨by omega, by omega, LineIndex.location_offset found count counted first last⟩
  · intro line row column there beyond
    obtain ⟨before, after, found, count⟩ := Text.exists_rowAt there
    have whole : row.take (column - 1) = row := List.take_of_length_le (by omega)
    refine ⟨before.byteSize, LineIndex.lineStart?_of_row found count, found.slice, ?_⟩
    rw [LineIndex.offset_of_row found count, whole]
  · intro line column beyond
    have none : (LineIndex.ofText content).lineStart? line = none :=
      List.getElem?_eq_none (by rw [← LineIndex.lineCount]; omega)
    rw [LineIndex.offset, none]

/-- The row of two Greek letters, with the place behind its last character, and the places around its
second letter. -/
theorem greek_row_inverse :
    let text : Text := ['a', '\n', 'π', 'ξ', '\n']
    let index := LineIndex.ofText text
    text.byteSize + 1 < 2 ^ 32 ∧
    (text.rows[1]? = some ['π', 'ξ'] ∧ index.location text (index.offset text 2 3) = ⟨2, 3⟩) ∧
      (text.IsBoundary 4 ∧ text.IsBoundary 6 ∧ index.location text 4 < index.location text 6) := by
  intro text index
  have fits : text.byteSize + 1 < 2 ^ 32 := by decide
  have row : text.rows[1]? = some ['π', 'ξ'] := by decide
  have cut : text.IsBoundary 4 := by decide
  have cut' : text.IsBoundary 6 := by decide
  obtain ⟨-, -, back, -, order, -⟩ := offsets_locations_inverse text fits
  obtain ⟨-, -, found⟩ := back 2 _ 3 (by decide) row (by decide) (by decide)
  exact ⟨fits, ⟨row, found⟩, cut, cut', order 4 6 cut cut' (by decide)⟩

/-- As many characters on one line as a column has values: the end of the line comes back from its
location as the start, and is located before it. -/
theorem offset_of_long_line :
    let text : Text := List.replicate (2 ^ 32 - 1) 'a'
    let index := LineIndex.ofText text
    let last := index.location text text.byteSize
    text.byteSize = 2 ^ 32 - 1 ∧ index.offset text last.line last.column = 0 ∧
      last < index.location text 0 := by
  intro text index last
  have size : text.byteSize = 2 ^ 32 - 1 := Text.byteSize_replicate (2 ^ 32 - 1)
  have wrapped : last = ⟨1, 0⟩ := by
    change text.location text.byteSize = _
    rw [size]
    exact (Text.location_replicate (2 ^ 32 - 1)).trans rfl
  have start : index.location text 0 = ⟨1, 1⟩ := Text.location_append [] text
  refine ⟨size, ?_, ?_⟩
  · rw [wrapped]
    exact LineIndex.offset_end [] text
  · rw [wrapped, start]
    exact .inr ⟨rfl, by decide⟩

end CellBindings
