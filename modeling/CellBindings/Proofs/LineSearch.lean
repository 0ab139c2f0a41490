import Mathlib.Algebra.Group.Nat.Defs
import CellBindings.Proofs.LineLocations

/-!
Finding the line of an offset. The starts of the lines are in strict order, so a search that halves
the candidates finds the line: it answers with the index of the offset among the starts, or with the
index where it would have to stand, and then the line before that index is the one. There always is
such a line, since the first starts at zero, and what is cut out to count the column starts and ends
between characters. The result is what one counts in the text up to the place, unless a number does
not fit: that takes 2 ^ 32 - 1 bytes.
-/

namespace CellBindings

namespace Text

variable {text : Text} {offset : Nat}

/-- Behind a first character there is no boundary before the character ends. -/
theorem IsBoundary.tail {c : Char} {cs : Text} (h : IsBoundary (c :: cs) offset)
    (inside : offset ≠ 0) : c.utf8Size ≤ offset ∧ IsBoundary cs (offset - c.utf8Size) := by
  obtain ⟨front, back, split, size⟩ := isBoundary_iff.mp h
  cases front with
  | nil => exact absurd size.symm inside
  | cons d front =>
    obtain ⟨rfl, rfl⟩ := List.cons.inj split
    rw [byteSize_cons] at size
    constructor
    · omega
    · exact isBoundary_iff.mpr ⟨front, back, rfl, by omega⟩

/-- Clamping an offset cuts the text. -/
theorem boundaryBefore_cut (text : Text) (offset : Nat) :
    ∃ front back, text = front ++ back ∧ front.byteSize = text.boundaryBefore offset := by
  induction text generalizing offset with
  | nil => exact ⟨[], [], rfl, rfl⟩
  | cons c cs ih =>
    by_cases inside : offset < c.utf8Size
    · exact ⟨[], c :: cs, rfl, by rw [boundaryBefore, if_pos inside, byteSize_nil]⟩
    · obtain ⟨front, back, split, size⟩ := ih (offset - c.utf8Size)
      refine ⟨c :: front, back, by rw [split]; rfl, ?_⟩
      rw [boundaryBefore, if_neg inside, byteSize_cons, size]

theorem boundaryBefore_le (text : Text) (offset : Nat) : text.boundaryBefore offset ≤ offset := by
  induction text generalizing offset with
  | nil => exact Nat.zero_le offset
  | cons c cs ih =>
    by_cases inside : offset < c.utf8Size
    · rw [boundaryBefore, if_pos inside]
      omega
    · have := ih (offset - c.utf8Size)
      rw [boundaryBefore, if_neg inside]
      omega

/-- No boundary lies between a clamped offset and the offset. -/
theorem IsBoundary.le_boundaryBefore {other : Nat} (h : text.IsBoundary other)
    (before : other ≤ offset) : other ≤ text.boundaryBefore offset := by
  induction text generalizing other offset with
  | nil =>
    have := h.le_byteSize
    rw [byteSize_nil] at this
    omega
  | cons c cs ih =>
    by_cases start : other = 0
    · omega
    · obtain ⟨behind, later⟩ := h.tail start
      have outside : ¬ offset < c.utf8Size := by omega
      have := @ih (offset - c.utf8Size) _ later (by omega)
      rw [boundaryBefore, if_neg outside]
      omega

end Text

namespace LineIndex

def searchBetween (starts : List Nat) (place low high : Nat) : Except Nat Nat :=
  if low < high then
    let middle := (low + high) / 2
    match starts[middle]? with
    | none => .error low
    | some start =>
      if start = place then .ok middle
      else if start < place then searchBetween starts place (middle + 1) high
      else searchBetween starts place low middle
  else .error low
termination_by high - low

/-- The index of a place among the starts, or the index where it would have to stand. -/
def search (index : LineIndex) (place : Nat) : Except Nat Nat :=
  searchBetween index.starts place 0 index.starts.length

/-- The line that an answer stands for: the one that starts at the place, or the one before the next
start, if there is one. -/
def answeredLine? : Except Nat Nat → Option Nat
  | .ok found => some found
  | .error 0 => none
  | .error (before + 1) => some before

def location? (index : LineIndex) (text : Text) (offset : Nat) : Option Location := do
  let place := text.boundaryBefore offset
  let line ← answeredLine? (index.search place)
  let start ← index.starts[line]?
  let piece ← text.slice? ⟨start, place⟩
  return ⟨.ofNat line + 1, .ofNat (piece.length + 1)⟩

def Answers (starts : List Nat) (place : Nat) : Except Nat Nat → Prop
  | .ok found => starts[found]? = some place
  | .error next => next ≤ starts.length ∧ (∀ start ∈ starts.take next, start < place) ∧
      ∀ start ∈ starts.drop next, place < start

variable {starts : List Nat} {place : Nat}

/-- Everything before an index is below what stands there, everything behind it is above. -/
theorem around_middle (sorted : starts.Pairwise (· < ·)) {middle start : Nat}
    (there : starts[middle]? = some start) :
    (∀ other ∈ starts.take (middle + 1), other ≤ start) ∧
      ∀ other ∈ starts.drop middle, start ≤ other := by
  obtain ⟨inside, rfl⟩ := List.getElem?_eq_some_iff.mp there
  constructor
  · intro other mem
    obtain ⟨i, bound, rfl⟩ := List.mem_take_iff_getElem.mp mem
    by_cases last : i = middle
    · subst last
      exact Nat.le_refl _
    · exact Nat.le_of_lt (List.pairwise_iff_getElem.mp sorted i middle (by omega) inside (by omega))
  · intro other mem
    obtain ⟨i, bound, rfl⟩ := List.mem_drop_iff_getElem.mp mem
    by_cases first : i = 0
    · subst first
      exact Nat.le_refl _
    · have later := List.pairwise_iff_getElem.mp sorted middle (i + middle) inside bound (by omega)
      simp only [Nat.add_comm middle i]
      omega

/-- Halving keeps this: what stands before `low` is below the place, and what stands from `high` on
is above it. -/
theorem searchBetween_answers (sorted : starts.Pairwise (· < ·)) {low high : Nat}
    (order : low ≤ high) (bound : high ≤ starts.length)
    (below : ∀ start ∈ starts.take low, start < place)
    (above : ∀ start ∈ starts.drop high, place < start) :
    Answers starts place (searchBetween starts place low high) := by
  fun_induction searchBetween starts place low high with
  | case1 low high more middle none =>
    have : starts.length ≤ middle := List.getElem?_eq_none_iff.mp none
    omega
  | case2 low high more middle there => exact there
  | case3 low high more middle start there other less ih =>
    apply ih
    · omega
    · exact bound
    · intro earlier mem
      have := (around_middle sorted there).1 earlier mem
      omega
    · exact above
  | case4 low high more middle start there other less ih =>
    apply ih
    · omega
    · omega
    · exact below
    · intro later mem
      have := (around_middle sorted there).2 later mem
      omega
  | case5 low high done =>
    have same : low = high := by omega
    exact ⟨by omega, below, by rwa [same]⟩

theorem search_answers {index : LineIndex} (sorted : index.starts.Pairwise (· < ·)) (place : Nat) :
    Answers index.starts place (index.search place) := by
  apply searchBetween_answers sorted (Nat.zero_le _) (Nat.le_refl _)
  · simp
  · simp

/-- A search finds the last of the starts that are not behind the place. -/
theorem Answers.line {answer : Except Nat Nat} {begun later : List Nat} {last : Nat}
    (h : Answers (begun ++ last :: later) place answer)
    (sorted : (begun ++ last :: later).Pairwise (· < ·)) (before : last ≤ place)
    (behind : ∀ start ∈ later, place < start) : answeredLine? answer = some begun.length := by
  obtain ⟨-, -, ascending⟩ := List.pairwise_append.mp sorted
  cases answer with
  | ok found =>
    have mem := List.mem_of_getElem? h
    have same : place = last := by
      rcases List.mem_append.mp mem with mem | mem
      · have := ascending place mem last List.mem_cons_self
        omega
      · rcases List.mem_cons.mp mem with same | mem
        · exact same
        · exact absurd (behind place mem) (Nat.lt_irrefl place)
    have there : (begun ++ last :: later)[begun.length]? = some place := by simp [same]
    obtain ⟨inside, value⟩ := List.getElem?_eq_some_iff.mp h
    obtain ⟨inside', value'⟩ := List.getElem?_eq_some_iff.mp there
    have distinct := sorted.imp Nat.ne_of_lt
    have index := (List.getElem_inj distinct).mp (value.trans value'.symm)
    rw [index]
    rfl
  | error next =>
    obtain ⟨bound, below, above⟩ := h
    -- the last start is not behind the place, those later are
    have more : begun.length < next := by
      apply Nat.lt_of_not_le
      intro less
      rw [List.drop_append_of_le_length less] at above
      have := above last (List.mem_append_right _ List.mem_cons_self)
      omega
    have stop : next ≤ begun.length + 1 := by
      apply Nat.le_of_not_lt
      intro beyond
      cases later with
      | nil =>
        rw [List.length_append, List.length_singleton] at bound
        omega
      | cons first later =>
        have inside : first ∈ (begun ++ last :: first :: later).take next := by
          obtain ⟨n, rfl⟩ : ∃ n, next = begun.length + (n + 2) :=
            ⟨next - begun.length - 2, by omega⟩
          simp [List.take_append]
        have := below first inside
        have := behind first List.mem_cons_self
        omega
    obtain rfl : next = begun.length + 1 := by omega
    rfl

theorem breaks_sorted (offset : Nat) (text : Text) : (breaks offset text).Pairwise (· < ·) := by
  induction text generalizing offset with
  | nil => exact .nil
  | cons c cs ih =>
    rw [breaks]
    split
    · exact .cons (fun place later => (mem_breaks later).1) (ih _)
    · exact ih _

theorem starts_sorted (text : Text) : (ofText text).starts.Pairwise (· < ·) :=
  .cons (fun _ later => (mem_breaks later).1) (breaks_sorted 0 text)

/-- Up to a cut, the starts end with that of the line which the cut stands in. -/
theorem starts_append (front back : Text) :
    ∃ begun start later, (ofText (front ++ back)).starts = begun ++ start :: later ∧
      begun.length = front.count '\n' ∧ start + front.lastLine.byteSize = front.byteSize ∧
      ∀ place ∈ later, front.byteSize < place := by
  obtain ⟨before, split, ends⟩ := front.eq_append_lastLine
  have whole : (ofText (front ++ back)).starts =
      (0 :: breaks 0 front) ++ breaks (0 + front.byteSize) back := by
    rw [ofText, breaks_append]
    rfl
  obtain ⟨begun, start, cut⟩ := (0 :: breaks 0 front).eq_nil_or_concat.resolve_left (by simp)
  have last := getLastD_breaks ends front.not_mem_lastLine
  rw [List.concat_eq_append] at cut
  rw [← split, cut, List.getLastD_concat] at last
  refine ⟨begun, start, breaks (0 + front.byteSize) back, ?_, ?_, ?_, ?_⟩
  · rw [whole, cut]
    simp
  · have size := congrArg List.length cut
    simp only [List.length_cons, length_breaks, List.length_append, List.length_nil] at size
    omega
  · have size := congrArg Text.byteSize split
    rw [Text.byteSize_append] at size
    omega
  · intro place mem
    have := mem_breaks mem
    omega

/-- Searching finds the end of the part before the place. -/
theorem location?_of_cut {front back : Text} {offset : Nat}
    (place : (front ++ back).boundaryBefore offset = front.byteSize) :
    (ofText (front ++ back)).location? (front ++ back) offset = some front.endLocation := by
  obtain ⟨begun, start, later, starts, line, start', behind⟩ := starts_append front back
  have sorted := starts_sorted (front ++ back)
  have found := search_answers sorted front.byteSize
  rw [starts] at found sorted
  have answered := found.line sorted (by omega) behind
  have there : (ofText (front ++ back)).starts[begun.length]? = some start := by simp [starts]
  have piece : (front ++ back).slice? ⟨start, front.byteSize⟩ = some front.lastLine := by
    obtain ⟨before, split, -⟩ := front.eq_append_lastLine
    have size := congrArg Text.byteSize split
    rw [Text.byteSize_append] at size
    have cut := Text.slice?_append before front.lastLine back
    rw [← List.append_assoc, ← split, ← size] at cut
    have same : start = before.byteSize := by omega
    rw [same]
    exact cut
  -- the line is counted after it has been narrowed, the column before
  have number : UInt32.ofNat begun.length + 1 = .ofNat front.endLine := by
    rw [Text.endLine, UInt32.ofNat_add, UInt32.add_comm, line]
    rfl
  simp only [location?, place, answered, there, piece, Option.bind_eq_bind, Option.bind_some,
    Option.pure_def, number, Text.endLocation, Text.endColumn, Nat.add_comm]

end LineIndex

namespace Text

variable {text : Text} {a b : Nat}

theorem location_congr (h : text.boundaryBefore a = text.boundaryBefore b) :
    text.location a = text.location b := by
  simp only [location, LineIndex.location, h]

theorem length_lastLine_le (text : Text) : text.lastLine.length ≤ text.length := by
  obtain ⟨before, split, -⟩ := text.eq_append_lastLine
  have size := congrArg List.length split
  rw [List.length_append] at size
  omega

/-- Lines and columns count characters of the text, each of them at most once. -/
theorem endLine_add_endColumn_le (text : Text) :
    text.endLine + text.endColumn ≤ text.byteSize + 2 := by
  obtain ⟨before, split, -⟩ := text.eq_append_lastLine
  have breaks : text.count '\n' = before.count '\n' + text.lastLine.count '\n' := by
    rw [← List.count_append, ← split]
  rw [List.count_eq_zero.mpr text.not_mem_lastLine] at breaks
  have size := congrArg List.length split
  have := text.length_le_byteSize
  have := @List.count_le_length _ _ '\n' before
  rw [List.length_append] at size
  simp only [endLine, endColumn]
  omega

theorem endLocation_line (fits : text.endLine < 2 ^ 32) :
    text.endLocation.line.toNat = text.endLine :=
  UInt32.toNat_ofNat_of_lt' fits

theorem endLocation_column (fits : text.endColumn < 2 ^ 32) :
    text.endLocation.column.toNat = text.endColumn :=
  UInt32.toNat_ofNat_of_lt' fits

/-- Both numbers fit, since each is at least one. -/
theorem endLocation_exact (fits : text.byteSize + 1 < 2 ^ 32) :
    text.endLocation.line.toNat = text.endLine ∧
      text.endLocation.column.toNat = text.endColumn := by
  have := text.endLine_add_endColumn_le
  have line : text.endLine = 1 + text.count '\n' := rfl
  have column : text.endColumn = 1 + text.lastLine.length := rfl
  exact ⟨endLocation_line (by omega), endLocation_column (by omega)⟩

/-- An offset has the location of the place it is clamped to. -/
theorem location_of_cut {front back : Text} {offset : Nat}
    (place : front.byteSize = (front ++ back).boundaryBefore offset) :
    (front ++ back).location offset = front.endLocation := by
  rw [← location_append front back]
  apply location_congr
  rw [← place, boundaryBefore_append]

section LongLines

theorem byteSize_replicate (n : Nat) : byteSize (List.replicate n 'a') = n := by
  induction n with
  | zero => rfl
  | succ n ih =>
    rw [List.replicate_succ, byteSize_cons, ih, Nat.add_comm]
    rfl

theorem location_replicate (n : Nat) :
    location (List.replicate n 'a') n = ⟨1, .ofNat (1 + n)⟩ := by
  have unbroken : '\n' ∉ List.replicate n 'a' := by simp [List.mem_replicate]
  have line : lastLine (List.replicate n 'a') = List.replicate n 'a' :=
    @lastLine_append [] _ (.inl rfl) unbroken
  have found := location_append (List.replicate n 'a') []
  rw [List.append_nil, byteSize_replicate] at found
  rw [found, endLocation, endLine, endColumn, line, List.count_eq_zero.mpr unbroken,
    List.length_replicate]
  rfl

end LongLines

end Text

/-- The location of an offset is what one counts. The offset stands for the last place before it,
and before the end of the text, where the text can be cut. The line is one more than the number of
line breaks up to there, and the column one more than the number of characters since the last of
them, both with the 32 bits that are kept. They are all there is in a text of fewer than 2 ^ 32 - 1
bytes. Searching the index of line starts gives the same: there always is a line to take, and the
piece that is counted can always be cut out. -/
theorem location_counted (content : Text) (offset : Nat) :
    ∃ place front back, content.splitAt? place = some (front, back) ∧
      place ≤ min offset content.byteSize ∧
      (∀ other, content.IsBoundary other → other ≤ min offset content.byteSize → other ≤ place) ∧
      content.location offset =
        ⟨.ofNat (1 + front.count '\n'), .ofNat (1 + front.lastLine.length)⟩ ∧
      (content.byteSize + 1 < 2 ^ 32 →
        (content.location offset).line.toNat = 1 + front.count '\n' ∧
        (content.location offset).column.toNat = 1 + front.lastLine.length) ∧
      (LineIndex.ofText content).location? content offset = some (content.location offset) := by
  obtain ⟨front, back, rfl, place⟩ := content.boundaryBefore_cut offset
  have clamped := (front ++ back).boundaryBefore_le offset
  have size := Text.byteSize_append front back
  have found := Text.location_of_cut place
  refine ⟨front.byteSize, front, back, Text.splitAt?_append front back, by omega, ?_, found, ?_, ?_⟩
  · intro other boundary before
    rw [place]
    exact boundary.le_boundaryBefore (by omega)
  · intro fits
    rw [found]
    exact Text.endLocation_exact (by omega)
  · rw [found]
    exact LineIndex.location?_of_cut place.symm

/-- Inside the second character of a line, behind the end, and on an empty last line. -/
example : let text : Text := ['a', '\n', 'π', 'ξ', '\n']
    text.location 5 = ⟨2, 2⟩ ∧ text.location 6 = ⟨2, 3⟩ ∧ text.location 99 = ⟨3, 1⟩ := by
  decide

/-- As many characters on one line as a column has values: the column of the end is lost. -/
theorem column_of_long_line :
    let text : Text := List.replicate (2 ^ 32 - 1) 'a'
    text.byteSize = 2 ^ 32 - 1 ∧ text.location text.byteSize = ⟨1, 0⟩ := by
  intro text
  have size : text.byteSize = 2 ^ 32 - 1 := Text.byteSize_replicate (2 ^ 32 - 1)
  refine ⟨size, ?_⟩
  rw [size, Text.location_replicate]
  rfl

end CellBindings
