import CellBindings.Proofs.CellSlices

/-!
Which files are notebooks, and what is read from them. A file is refused without the header, or for
the first line that starts a section with a label that is no id, unless the order of cells was
announced before it. Every other file is read: each line that starts a section gives one cell, but
for those of packages, and what follows the announcement of the order is never looked at.
-/

namespace CellBindings

namespace Notebook

def IsLabelled (line label : Text) : Prop :=
  ∃ rest : Text, line = delimiter ++ rest ∧ rest.trim = label

def IsOrderLine (line : Text) : Prop := IsLabelled line orderLabel

/-- Line `n` starts a section with this label, and neither it nor a line before it announces the
order of cells. -/
def Starts (content : Text) (n : Nat) (label : Text) : Prop :=
  ∃ before line after, Text.lines content = before ++ line :: after ∧ before.length + 1 = n ∧
    IsLabelled line label ∧ ∀ other ∈ before ++ [line], ¬ IsOrderLine other

def sectionAt (content : Text) (n : Nat) (label : Text) : Section :=
  ⟨n, label, Text.byteSize ((Text.lines content).take n).flatten,
    (((Text.lines content).drop n).takeWhile (!isDelimiter ·)).flatten⟩

section Ids

variable {id : Text}

/-- A text is cut at a hyphen. -/
theorem drop_to_hyphen {m n : Nat} (before : m ≤ n) (hyphen : id[n]? = some '-') :
    id.drop m = (id.drop m).take (n - m) ++ '-' :: id.drop (n + 1) := by
  obtain ⟨inside, found⟩ := List.getElem?_eq_some_iff.mp hyphen
  have rest : (id.drop m).drop (n - m) = '-' :: id.drop (n + 1) := by
    rw [List.drop_drop, Nat.add_sub_cancel' before, ← found, List.getElem_cons_drop]
  rw [← rest, List.take_append_drop]

theorem isUuid_of_isCellId (h : isCellId id = true) : IsUuid id := by
  simp only [isCellId, Bool.and_eq_true, beq_iff_eq, List.all_eq_true] at h
  obtain ⟨size, allowed⟩ := h
  have place {i : Nat} {c : Char} (found : id[i]? = some c) :
      (if i = 8 ∨ i = 13 ∨ i = 18 ∨ i = 23 then c == '-' else isHexDigit c) = true :=
    allowed (c, i) (List.mk_mem_zipIdx_iff_getElem?.mpr found)
  have hyphen {i : Nat} (special : i = 8 ∨ i = 13 ∨ i = 18 ∨ i = 23) : id[i]? = some '-' := by
    have inside : i < id.length := by omega
    have here := place (List.getElem?_eq_getElem inside)
    rw [if_pos special, beq_iff_eq] at here
    rw [List.getElem?_eq_getElem inside, here]
  have digits {m n : Nat} (apart : ∀ i, m ≤ i → i < m + n → ¬ (i = 8 ∨ i = 13 ∨ i = 18 ∨ i = 23)) :
      ∀ x ∈ (id.drop m).take n, isHexDigit x = true := by
    intro x mem
    obtain ⟨i, bound, rfl⟩ := List.mem_take_iff_getElem.mp mem
    have here := place (@List.getElem?_eq_getElem _ id (m + i) (by simp at bound; omega))
    rw [if_neg (apart (m + i) (by omega) (by omega))] at here
    rw [List.getElem_drop]
    exact here
  refine ⟨(id.drop 0).take 8, (id.drop 9).take 4, (id.drop 14).take 4, (id.drop 19).take 4,
    (id.drop 24).take 12, ?_, by simp; omega, by simp; omega, by simp; omega, by simp; omega,
    by simp; omega, ?_⟩
  · have first := @drop_to_hyphen id 0 8 (by omega) (hyphen (by omega))
    have second := @drop_to_hyphen id 9 13 (by omega) (hyphen (by omega))
    have third := @drop_to_hyphen id 14 18 (by omega) (hyphen (by omega))
    have fourth := @drop_to_hyphen id 19 23 (by omega) (hyphen (by omega))
    have fifth : (id.drop 24).take 12 = id.drop 24 := List.take_of_length_le (by simp; omega)
    rw [fifth, ← fourth, ← third, ← second, ← first, List.drop_zero]
  · simp only [List.forall_mem_append]
    exact ⟨digits (by omega), digits (by omega), digits (by omega), digits (by omega),
      digits (by omega)⟩

theorem isCellId_iff : isCellId id = true ↔ IsUuid id :=
  ⟨isUuid_of_isCellId, IsUuid.isCellId⟩

end Ids

/-- Nothing behind an element that fails the test is taken. -/
theorem takeWhile_append_stop {α : Type} {p : α → Bool} {x : α} {front back : List α}
    (stop : p x = false) : (front ++ x :: back).takeWhile p = front.takeWhile p := by
  induction front with
  | nil => simp [stop]
  | cons y front ih => simp only [List.cons_append, List.takeWhile_cons, ih]

theorem dropWhile_append_stop {α : Type} {p : α → Bool} {x : α} {front back : List α}
    (stop : p x = false) : (front ++ x :: back).dropWhile p = front.dropWhile p ++ x :: back := by
  induction front with
  | nil => simp [stop]
  | cons y front ih =>
    simp only [List.cons_append, List.dropWhile_cons, ih]
    split
    · rfl
    · rfl

section Ordered

variable {sections : List Section} {s : Section} {p : Section → Bool}

/-- In sections in the order of their lines, those before the first that fails a test are those
which no failing one precedes. -/
theorem mem_takeWhile_iff (ordered : sections.Pairwise (·.line < ·.line)) :
    s ∈ sections.takeWhile p ↔ s ∈ sections ∧ ∀ t ∈ sections, t.line ≤ s.line → p t = true := by
  induction sections with
  | nil => simp
  | cons first rest ih =>
    obtain ⟨behind, ordered⟩ := List.pairwise_cons.mp ordered
    by_cases passes : p first = true
    · rw [List.takeWhile_cons_of_pos passes, List.mem_cons, List.mem_cons, ih ordered]
      constructor
      · rintro (rfl | ⟨mem, before⟩)
        · refine ⟨.inl rfl, fun t mem le => ?_⟩
          rcases List.mem_cons.mp mem with rfl | mem
          · exact passes
          · have := behind t mem
            omega
        · refine ⟨.inr mem, fun t inside le => ?_⟩
          rcases List.mem_cons.mp inside with rfl | inside
          · exact passes
          · exact before t inside le
      · rintro ⟨rfl | mem, before⟩
        · exact .inl rfl
        · exact .inr ⟨mem, fun t inside le => before t (List.mem_cons_of_mem _ inside) le⟩
    · rw [List.takeWhile_cons_of_neg passes]
      constructor
      · exact fun mem => absurd mem List.not_mem_nil
      · rintro ⟨mem, before⟩
        have le : first.line ≤ s.line := by
          rcases List.mem_cons.mp mem with rfl | mem
          · exact Nat.le_refl _
          · exact Nat.le_of_lt (behind s mem)
        exact absurd (before first List.mem_cons_self le) passes

/-- The section found by a test is the first that passes it. -/
theorem find?_eq_some_iff_first (ordered : sections.Pairwise (·.line < ·.line)) :
    sections.find? p = some s ↔
      s ∈ sections ∧ p s = true ∧ ∀ t ∈ sections, t.line < s.line → p t = false := by
  rw [List.find?_eq_some_iff_append]
  constructor
  · rintro ⟨passes, before, after, rfl, fails⟩
    refine ⟨by simp, passes, fun t mem less => ?_⟩
    obtain ⟨-, later, -⟩ := List.pairwise_append.mp ordered
    rcases List.mem_append.mp mem with mem | mem
    · simpa using fails t mem
    · rcases List.mem_cons.mp mem with rfl | mem
      · omega
      · have := (List.pairwise_cons.mp later).1 t mem
        omega
  · rintro ⟨mem, passes, fails⟩
    obtain ⟨before, after, rfl⟩ := List.append_of_mem mem
    obtain ⟨-, -, across⟩ := List.pairwise_append.mp ordered
    refine ⟨passes, before, after, rfl, fun t early => ?_⟩
    rw [fails t (List.mem_append_left _ early) (across t early s List.mem_cons_self)]
    rfl

end Ordered

section Sections

variable {number offset : Nat} {lines : List Text} {s : Section}

def Section.IsCut (s : Section) (number offset : Nat) (lines : List Text) : Prop :=
  ∃ (before : List Text) (rest : Text) (after : List Text),
    lines = before ++ (delimiter ++ rest) :: after ∧
    s = ⟨number + before.length, rest.trim,
      offset + Text.byteSize (before.flatten ++ (delimiter ++ rest)),
      (after.takeWhile (!isDelimiter ·)).flatten⟩

theorem Section.isCut_cons {line : Text} : s.IsCut number offset (line :: lines) ↔
    (∃ rest : Text, line = delimiter ++ rest ∧
      s = ⟨number, rest.trim, offset + line.byteSize, (lines.takeWhile (!isDelimiter ·)).flatten⟩) ∨
    s.IsCut (number + 1) (offset + line.byteSize) lines := by
  constructor
  · rintro ⟨before, rest, after, split, rfl⟩
    cases before with
    | nil =>
      obtain ⟨rfl, rfl⟩ := List.cons.inj split
      exact .inl ⟨rest, rfl, rfl⟩
    | cons first before =>
      obtain ⟨rfl, rfl⟩ := List.cons.inj split
      refine .inr ⟨before, rest, after, rfl, ?_⟩
      simp only [List.length_cons, List.flatten_cons, List.append_assoc, Text.byteSize_append,
        Section.mk.injEq, and_true, true_and]
      omega
  · rintro (⟨rest, rfl, rfl⟩ | ⟨before, rest, after, rfl, rfl⟩)
    · exact ⟨[], rest, lines, rfl, rfl⟩
    · refine ⟨line :: before, rest, after, rfl, ?_⟩
      simp only [List.length_cons, List.flatten_cons, List.append_assoc, Text.byteSize_append,
        Section.mk.injEq, and_true, true_and]
      omega

/-- The sections are those of the lines that start one. -/
theorem mem_sectionsFrom_iff :
    s ∈ sectionsFrom number offset lines ↔ s.IsCut number offset lines := by
  induction lines generalizing number offset with
  | nil => simp [sectionsFrom, Section.IsCut]
  | cons line lines ih =>
    rw [Section.isCut_cons, ← ih, sectionsFrom]
    cases found : Text.dropPrefix? line delimiter with
    | none =>
      constructor
      · exact .inr
      · rintro (⟨rest, rfl, -⟩ | mem)
        · rw [Text.dropPrefix?_append] at found
          cases found
        · exact mem
    | some label =>
      have split := Text.eq_append_of_dropPrefix? found
      dsimp only
      rw [List.mem_cons]
      constructor
      · rintro (rfl | mem)
        · exact .inl ⟨label, split, rfl⟩
        · exact .inr mem
      · rintro (⟨rest, same, rfl⟩ | mem)
        · obtain rfl : rest = label := List.append_cancel_left (same.symm.trans split)
          exact .inl rfl
        · exact .inr mem

theorem sectionsFrom_numbered (number offset : Nat) (lines : List Text) :
    (sectionsFrom number offset lines).Pairwise (·.line < ·.line) := by
  induction lines generalizing number offset with
  | nil => exact .nil
  | cons line lines ih =>
    rw [sectionsFrom]
    split
    · exact ih _ _
    · refine .cons (fun s mem => ?_) (ih _ _)
      obtain ⟨before, rest, after, -, rfl⟩ := mem_sectionsFrom_iff.mp mem
      dsimp only
      omega

theorem cellSections_numbered (content : Text) :
    (cellSections content).Pairwise (·.line < ·.line) :=
  (sectionsFrom_numbered 1 0 _).sublist (List.takeWhile_sublist _)

theorem mem_sections_iff {content : Text} :
    s ∈ sectionsFrom 1 0 (Text.lines content) ↔
      ∃ (before : List Text) (rest : Text) (after : List Text),
        Text.lines content = before ++ (delimiter ++ rest) :: after ∧
        s = sectionAt content (before.length + 1) rest.trim := by
  have same {before after : List Text} {rest : Text}
      (split : Text.lines content = before ++ (delimiter ++ rest) :: after) :
      sectionAt content (before.length + 1) rest.trim = ⟨1 + before.length, rest.trim,
        0 + Text.byteSize (before.flatten ++ (delimiter ++ rest)),
        (after.takeWhile (!isDelimiter ·)).flatten⟩ := by
    simp [sectionAt, split, List.take_length_add_append, List.drop_length_add_append, Nat.add_comm]
  rw [mem_sectionsFrom_iff]
  constructor
  · rintro ⟨before, rest, after, split, rfl⟩
    exact ⟨before, rest, after, split, (same split).symm⟩
  · rintro ⟨before, rest, after, split, rfl⟩
    exact ⟨before, rest, after, split, same split⟩

/-- The sections of cells are those that start before the order of cells is announced. -/
theorem mem_cellSections_iff {content : Text} :
    s ∈ cellSections content ↔
      ∃ n label, Starts content n label ∧ s = sectionAt content n label := by
  rw [cellSections, mem_takeWhile_iff (sectionsFrom_numbered 1 0 _), mem_sections_iff]
  constructor
  · rintro ⟨⟨before, rest, after, split, rfl⟩, early⟩
    refine ⟨_, _, ⟨before, delimiter ++ rest, after, split, rfl, ⟨rest, rfl, rfl⟩, ?_⟩, rfl⟩
    rintro _ inside ⟨order, rfl, named⟩
    -- the announcement would be a section of its own, not behind this one
    obtain ⟨front, back, cut⟩ := List.append_of_mem inside
    have there : Text.lines content = front ++ (delimiter ++ order) :: (back ++ after) := by
      rw [split, ← List.singleton_append, ← List.append_assoc, cut]
      simp
    have size := congrArg List.length cut
    simp only [List.length_append, List.length_cons, List.length_nil] at size
    have fails := early _ (mem_sections_iff.mpr ⟨front, order, _, there, rfl⟩)
      (by simp only [sectionAt]; omega)
    simp [sectionAt, named] at fails
  · rintro ⟨n, label, ⟨before, _, after, split, rfl, ⟨rest, rfl, rfl⟩, early⟩, rfl⟩
    refine ⟨⟨before, rest, after, split, rfl⟩, fun t mem le => ?_⟩
    obtain ⟨front, other, back, cut, rfl⟩ := mem_sections_iff.mp mem
    have before' : before ++ [delimiter ++ rest] <+: Text.lines content := ⟨after, by simp [split]⟩
    have front' : front ++ [delimiter ++ other] <+: Text.lines content := ⟨back, by simp [cut]⟩
    have inside := List.prefix_of_prefix_length_le front' before'
      (by simpa [sectionAt] using le)
    rw [bne_iff_ne]
    intro named
    exact early _ (inside.subset (by simp)) ⟨other, rfl, named⟩

/-- What follows an announcement of the order changes neither the sections before it nor what they
hold, since the announcement ends the last of them. -/
theorem sections_before_order {order order' : Text} (h : IsOrderLine order)
    (h' : IsOrderLine order') (front after after' : List Text) (number offset : Nat) :
    (sectionsFrom number offset (front ++ order :: after)).takeWhile (·.label != orderLabel) =
      (sectionsFrom number offset (front ++ order' :: after')).takeWhile
        (·.label != orderLabel) := by
  obtain ⟨rest, rfl, named⟩ := h
  obtain ⟨rest', rfl, named'⟩ := h'
  induction front generalizing number offset with
  | nil => simp [sectionsFrom, Text.dropPrefix?_append, named, named']
  | cons line front ih =>
    have ends (label : Text) (later : List Text) :
        (front ++ (delimiter ++ label) :: later).takeWhile (!isDelimiter ·) =
          front.takeWhile (!isDelimiter ·) := by
      have starts : isDelimiter (delimiter ++ label) = true :=
        List.isPrefixOf_iff_prefix.mpr (List.prefix_append _ _)
      exact takeWhile_append_stop (by rw [starts]; rfl)
    simp only [List.cons_append, sectionsFrom]
    cases Text.dropPrefix? line delimiter with
    | none => exact ih _ _
    | some label => simp only [ends, List.takeWhile_cons, ih]

end Sections

section Headers

variable {content other line : Text} {rest : List Text}

/-- Whether a file is a notebook is seen in its first line. -/
theorem isNotebook_eq_first (h : Text.lines content = line :: rest) :
    isNotebook content = isNotebook line := by
  have whole : content = line ++ rest.flatten := by
    rw [← Text.flatten_lines content, h, List.flatten_cons]
  cases rest with
  | nil => rw [whole, List.flatten_nil, List.append_nil]
  | cons next rest =>
    obtain ⟨front, rfl⟩ : ∃ front, line = front ++ ['\n'] :=
      List.getLast?_eq_some_iff.mp ((Text.lines_cons h).2 (by simp))
    have first (back : Text) :
        ((front ++ '\n' :: back).dropWhile (· == '\ufeff')).takeWhile (· != '\n') =
          (front.dropWhile (· == '\ufeff')).takeWhile (· != '\n') := by
      rw [@dropWhile_append_stop Char (· == '\ufeff') '\n' front back (by decide)]
      exact takeWhile_append_stop (by decide)
    rw [whole, List.append_assoc, List.singleton_append, isNotebook, isNotebook, first, first]

/-- An announcement of the order is no header. -/
theorem not_isNotebook_of_isLabelled {label : Text} (h : IsLabelled line label) :
    isNotebook line = false := by
  obtain ⟨rest, rfl, -⟩ := h
  rw [isNotebook, beq_eq_false_iff_ne]
  intro same
  -- the second character is a blank, that of the header is not
  have starts := (Text.trimEnd_prefix _).trans
    (List.takeWhile_prefix (l := (delimiter ++ rest).dropWhile (· == '\ufeff')) (· != '\n'))
  rw [same] at starts
  have unmarked : (delimiter ++ rest).dropWhile (· == '\ufeff') = delimiter ++ rest := rfl
  rw [unmarked] at starts
  simp [header, delimiter] at starts

end Headers

section Reading

variable {content : Text} {n : Nat} {id : Text}

/-- The three outcomes: no header, a first label that is no id, or a notebook. -/
theorem read_cases (content : Text) :
    (isNotebook content = false ∧ read content = .error .missingHeader) ∨
    isNotebook content = true ∧
      ((∃ s, (cellSections content).find? (!isCellId ·.label) = some s ∧
        read content = .error (.invalidCellId s.line s.label)) ∨
      ((cellSections content).find? (!isCellId ·.label) = none ∧
        ∃ notebook, read content = .ok notebook)) := by
  cases header : isNotebook content with
  | false => exact .inl ⟨rfl, by simp [read, header]⟩
  | true =>
    cases found : (cellSections content).find? (!isCellId ·.label) with
    | some s => exact .inr ⟨rfl, .inl ⟨s, rfl, by simp [read, header, found]⟩⟩
    | none => exact .inr ⟨rfl, .inr ⟨rfl, by simp [read, header, found]⟩⟩

theorem section_of_starts (h : Starts content n id) :
    sectionAt content n id ∈ cellSections content :=
  mem_cellSections_iff.mpr ⟨n, id, h, rfl⟩

theorem find?_isCellId_iff :
    (∃ s, (cellSections content).find? (!isCellId ·.label) = some s ∧ s.line = n ∧ s.label = id) ↔
      Starts content n id ∧ ¬ IsUuid id ∧
        ∀ m other, Starts content m other → m < n → IsUuid other := by
  constructor
  · rintro ⟨s, found, rfl, rfl⟩
    obtain ⟨mem, wrong, early⟩ := (find?_eq_some_iff_first (cellSections_numbered content)).mp found
    obtain ⟨n, id, starts, rfl⟩ := mem_cellSections_iff.mp mem
    refine ⟨starts, ?_, fun m other starts' less => ?_⟩
    · rw [← isCellId_iff]
      simpa using wrong
    · have right := early _ (section_of_starts starts') less
      rw [← isCellId_iff]
      simpa [sectionAt] using right
  · rintro ⟨starts, wrong, early⟩
    refine ⟨sectionAt content n id, ?_, rfl, rfl⟩
    rw [find?_eq_some_iff_first (cellSections_numbered content)]
    refine ⟨section_of_starts starts, ?_, fun t mem less => ?_⟩
    · rw [← isCellId_iff] at wrong
      simpa [sectionAt] using wrong
    · obtain ⟨m, other, starts', rfl⟩ := mem_cellSections_iff.mp mem
      have right := early m other starts' less
      rw [← isCellId_iff] at right
      simp [sectionAt, right]

/-- All labels are ids exactly if none is found that is not. -/
theorem find?_isCellId_none :
    (cellSections content).find? (!isCellId ·.label) = none ↔
      ∀ n id, Starts content n id → IsUuid id := by
  rw [List.find?_eq_none]
  constructor
  · intro all n id starts
    rw [← isCellId_iff]
    simpa [sectionAt] using all _ (section_of_starts starts)
  · intro all s mem
    obtain ⟨n, id, starts, rfl⟩ := mem_cellSections_iff.mp mem
    have right := all n id starts
    rw [← isCellId_iff] at right
    simp [sectionAt, right]

def cellStarts (content : Text) : List (Nat × Text) :=
  ((cellSections content).filter fun s => !packageIds.contains s.label).map
    fun s => (s.line, s.label)

theorem cellStarts_numbered (content : Text) : (cellStarts content).Pairwise (·.1 < ·.1) :=
  List.pairwise_map.mpr ((cellSections_numbered content).filter _)

theorem mem_cellStarts_iff :
    (n, id) ∈ cellStarts content ↔ Starts content n id ∧ id ∉ packageIds := by
  simp only [cellStarts, List.mem_map, List.mem_filter, Prod.mk.injEq]
  constructor
  · rintro ⟨s, ⟨mem, own⟩, rfl, rfl⟩
    obtain ⟨n, id, starts, rfl⟩ := mem_cellSections_iff.mp mem
    exact ⟨starts, by simpa using own⟩
  · rintro ⟨starts, own⟩
    exact ⟨_, ⟨section_of_starts starts, by simpa [sectionAt] using own⟩, rfl, rfl⟩

/-- One cell for each of these lines. -/
theorem cells_eq (content : Text) :
    (((cellSections content).map Section.cell).filter fun cell => !packageIds.contains cell.id) =
      (cellStarts content).map fun start => (sectionAt content start.1 start.2).cell := by
  rw [cellStarts, List.map_map, List.filter_map]
  apply List.map_congr_left
  intro s mem
  obtain ⟨n, id, -, rfl⟩ := mem_cellSections_iff.mp (List.mem_filter.mp mem).1
  rfl

/-- Files that agree up to the announcement of the order are read alike. -/
theorem read_eq_of_order {other order order' : Text} {front after after' : List Text}
    (h : Text.lines content = front ++ order :: after)
    (h' : Text.lines other = front ++ order' :: after')
    (announces : IsOrderLine order) (announces' : IsOrderLine order') :
    read other = read content := by
  have sections : cellSections other = cellSections content := by
    rw [cellSections, cellSections, h, h']
    exact sections_before_order announces' announces front after' after 1 0
  have same : isNotebook other = isNotebook content := by
    cases front with
    | nil =>
      rw [isNotebook_eq_first h, isNotebook_eq_first h', not_isNotebook_of_isLabelled announces,
        not_isNotebook_of_isLabelled announces']
    | cons line front => rw [isNotebook_eq_first h, isNotebook_eq_first h']
  simp only [read, same, sections]

end Reading

/-- Which files are read, and how the others fail. The header is missed exactly where there is none.
A line is blamed exactly if it is the first that starts a section with a label which is no id, and
no line up to it announces the order of cells. All other files are read, with one cell for each line
that starts a section before the order is announced and whose id is that of no package, in the order
of the lines. Nothing behind the first announcement changes the result. -/
theorem read_exact (content : Text) :
    (read content = .error .missingHeader ↔ isNotebook content = false) ∧
    (∀ n id, read content = .error (.invalidCellId n id) ↔
      isNotebook content = true ∧ Starts content n id ∧ ¬ IsUuid id ∧
        ∀ m other, Starts content m other → m < n → IsUuid other) ∧
    ((∃ notebook, read content = .ok notebook) ↔
      isNotebook content = true ∧ ∀ n id, Starts content n id → IsUuid id) ∧
    (∀ notebook, read content = .ok notebook →
      ∃ starts : List (Nat × Text), starts.Pairwise (·.1 < ·.1) ∧
        (∀ n id, (n, id) ∈ starts ↔ Starts content n id ∧ id ∉ packageIds) ∧
        notebook.cells = starts.map fun start => (sectionAt content start.1 start.2).cell) ∧
    ∀ other front order after order' after',
      Text.lines content = front ++ order :: after → Text.lines other = front ++ order' :: after' →
      IsOrderLine order → IsOrderLine order' → read other = read content := by
  refine ⟨?_, fun n id => ?_, ?_, fun notebook accepted => ?_, ?_⟩
  · rcases read_cases content with ⟨header, result⟩ | ⟨header, ⟨s, -, result⟩ | ⟨-, _, result⟩⟩
    all_goals simp [header, result]
  · rw [← find?_isCellId_iff]
    rcases read_cases content with
      ⟨header, result⟩ | ⟨header, ⟨s, found, result⟩ | ⟨none, _, result⟩⟩
    · simp [header, result]
    · simp [header, found, result]
    · simp [header, none, result]
  · rw [← find?_isCellId_none]
    rcases read_cases content with
      ⟨header, result⟩ | ⟨header, ⟨s, found, result⟩ | ⟨none, _, result⟩⟩
    · simp [header, result]
    · simp [header, found, result]
    · simp [header, none, result]
  · refine ⟨cellStarts content, cellStarts_numbered content, fun n id => mem_cellStarts_iff, ?_⟩
    rw [cells_of_read accepted, cells_eq]
  · exact fun _ _ _ _ _ _ lines lines' => read_eq_of_order lines lines'

/-- A cell, a section with a label that is no id, and the order of cells with text behind it. -/
def misnamed (further : Text) : Text :=
  header ++ '\n' :: '\n' :: (delimiter ++ packageId '3' ++ '\n' :: 'x' :: '\n' ::
    (delimiter ++ ['n', 'o', 'p', 'e', ' ', '\r', '\n'] ++
      (delimiter ++ orderLabel ++ '\n' :: further)))

/-- The second section is blamed, whatever follows the order of cells. -/
theorem misnamed_refused :
    read (misnamed []) = .error (.invalidCellId 5 ['n', 'o', 'p', 'e']) ∧
    Starts (misnamed []) 5 ['n', 'o', 'p', 'e'] ∧ ¬ IsUuid ['n', 'o', 'p', 'e'] ∧
    read (misnamed (delimiter ++ ['z'])) = read (misnamed []) := by
  obtain ⟨-, blames, -, -, order⟩ := read_exact (misnamed [])
  have refused : read (misnamed []) = .error (.invalidCellId 5 ['n', 'o', 'p', 'e']) := by
    decide +kernel
  obtain ⟨-, starts, wrong, -⟩ := (blames 5 ['n', 'o', 'p', 'e']).mp refused
  have announces : IsOrderLine (delimiter ++ (orderLabel ++ ['\n'])) :=
    ⟨orderLabel ++ ['\n'], rfl, by decide⟩
  refine ⟨refused, starts, wrong, order _
    [header ++ ['\n'], ['\n'], delimiter ++ packageId '3' ++ ['\n'], ['x', '\n'],
      delimiter ++ ['n', 'o', 'p', 'e', ' ', '\r', '\n']]
    _ [] _ [delimiter ++ ['z']] rfl rfl announces announces⟩

end Notebook

end CellBindings
