import CellBindings.Text.Lines

/-!
Lines and columns by counting. The line of a place is one more than the number of line breaks before
it, its column one more than the number of characters since the last of them. The index of line
starts finds the same up to the 32 bits that a location keeps, for every place where a text can be
cut. In a text of fewer than 2 ^ 32 - 1 bytes the numbers fit.
-/

namespace CellBindings

namespace Text

def lastLine (text : Text) : Text := (text.reverse.takeWhile (· != '\n')).reverse

def endLine (text : Text) : Nat := 1 + text.count '\n'

def endColumn (text : Text) : Nat := 1 + text.lastLine.length

def endLocation (text : Text) : Location := ⟨.ofNat text.endLine, .ofNat text.endColumn⟩

/-- The piece between two parts of a text is what its span names. -/
theorem slice?_append (front piece back : Text) :
    slice? (front ++ (piece ++ back)) ⟨front.byteSize, front.byteSize + piece.byteSize⟩ =
      some piece := by
  have forward : ¬ front.byteSize + piece.byteSize < front.byteSize := by omega
  rw [slice?, if_neg forward, splitAt?_append]
  simp [splitAt?_append]

theorem boundaryBefore_append (front back : Text) :
    boundaryBefore (front ++ back) front.byteSize = front.byteSize := by
  induction front with
  | nil =>
    cases back with
    | nil => rfl
    | cons c cs => simp [boundaryBefore, c.utf8Size_pos]
  | cons c cs ih =>
    have past : ¬ c.utf8Size + byteSize cs < c.utf8Size := by omega
    rw [List.cons_append, byteSize_cons, boundaryBefore, if_neg past, Nat.add_sub_cancel_left, ih]

/-- A text is its last line, behind nothing or behind a line break. -/
theorem eq_append_lastLine (text : Text) :
    ∃ before, text = before ++ text.lastLine ∧ (before = [] ∨ ∃ lines, before = lines ++ ['\n']) := by
  refine ⟨(text.reverse.dropWhile (· != '\n')).reverse, ?_, ?_⟩
  · rw [lastLine, ← List.reverse_append, List.takeWhile_append_dropWhile, List.reverse_reverse]
  · cases rest : text.reverse.dropWhile (· != '\n') with
    | nil => exact .inl rfl
    | cons c cs =>
      have stop := List.head?_dropWhile_not (· != '\n') text.reverse
      rw [rest] at stop
      have break' : c = '\n' := by simpa using stop
      exact .inr ⟨cs.reverse, by rw [break', List.reverse_cons]⟩

theorem not_mem_lastLine (text : Text) : '\n' ∉ text.lastLine := by
  intro mem
  have inLine := List.all_eq_true.mp List.all_takeWhile '\n' (List.mem_reverse.mp mem)
  simp at inLine

/-- Behind a break, the last line is all there is. -/
theorem lastLine_append {before piece : Text}
    (begins : before = [] ∨ ∃ lines, before = lines ++ ['\n']) (unbroken : '\n' ∉ piece) :
    (before ++ piece).lastLine = piece := by
  have all : ∀ c ∈ piece.reverse, (c != '\n') = true := by
    intro c mem
    rw [bne_iff_ne]
    rintro rfl
    exact unbroken (List.mem_reverse.mp mem)
  have whole : (before ++ piece).reverse.takeWhile (· != '\n') = piece.reverse := by
    rw [List.reverse_append, List.takeWhile_append_of_pos all]
    rcases begins with rfl | ⟨lines, rfl⟩ <;> simp
  rw [lastLine, whole, List.reverse_reverse]

theorem lastLine_append_of_nil {before : Text} (ended : before.lastLine = []) (piece : Text) :
    (before ++ piece).lastLine = piece.lastLine := by
  have ended : before.reverse.takeWhile (· != '\n') = [] := List.reverse_eq_nil_iff.mp ended
  rw [lastLine, lastLine, List.reverse_append, List.takeWhile_append, ended, List.append_nil]
  split
  · next whole =>
    rw [(List.takeWhile_prefix _).eq_of_length whole]
  · rfl

end Text

namespace LineIndex

theorem breaks_append (offset : Nat) (front back : Text) :
    breaks offset (front ++ back) = breaks offset front ++ breaks (offset + front.byteSize) back := by
  induction front generalizing offset with
  | nil => rfl
  | cons c cs ih =>
    simp only [List.cons_append, breaks, ih, Text.byteSize_cons, Nat.add_assoc]
    split <;> rfl

theorem length_breaks (offset : Nat) (text : Text) :
    (breaks offset text).length = text.count '\n' := by
  induction text generalizing offset with
  | nil => rfl
  | cons c cs ih =>
    rw [breaks]
    split
    · next same => simp [same, ih]
    · next other => simp [other, ih]

theorem breaks_eq_nil {offset : Nat} {text : Text} (h : '\n' ∉ text) : breaks offset text = [] := by
  apply List.eq_nil_of_length_eq_zero
  rw [length_breaks]
  exact List.count_eq_zero.mpr h

/-- Each break lies behind the start of the text, and not behind its end. -/
theorem mem_breaks {offset place : Nat} {text : Text} (h : place ∈ breaks offset text) :
    offset < place ∧ place ≤ offset + text.byteSize := by
  induction text generalizing offset with
  | nil => cases h
  | cons c cs ih =>
    have := c.utf8Size_pos
    have later (hb : place ∈ breaks (offset + c.utf8Size) cs) :
        offset < place ∧ place ≤ offset + Text.byteSize (c :: cs) := by
      have := ih hb
      simp only [Text.byteSize_cons]
      omega
    rw [breaks] at h
    split at h
    · rcases List.mem_cons.mp h with rfl | h
      · simp only [Text.byteSize_cons]
        omega
      · exact later h
    · exact later h

/-- The lines begun before a cut are those of the front part. -/
theorem begun_append (front back : Text) :
    (ofText (front ++ back)).begun front.byteSize = 0 :: breaks 0 front := by
  have first : ∀ place ∈ breaks 0 front, decide (place ≤ front.byteSize) = true := by
    intro place hp
    have := mem_breaks hp
    exact decide_eq_true (by omega)
  have behind : (breaks (0 + front.byteSize) back).takeWhile (· ≤ front.byteSize) = [] := by
    cases hb : breaks (0 + front.byteSize) back with
    | nil => rfl
    | cons place rest =>
      have := @mem_breaks (0 + front.byteSize) place back (by rw [hb]; exact List.mem_cons_self)
      exact List.takeWhile_cons_of_neg (by simp only [decide_eq_true_eq]; omega)
  rw [begun, ofText, breaks_append, List.takeWhile_cons_of_pos (by simp),
    List.takeWhile_append_of_pos first, behind, List.append_nil]

/-- The last line start of a text is where its last line begins. -/
theorem getLastD_breaks {before line : Text} (h : before = [] ∨ ∃ lines, before = lines ++ ['\n'])
    (hl : '\n' ∉ line) : (0 :: breaks 0 (before ++ line)).getLastD 0 = before.byteSize := by
  rw [breaks_append, breaks_eq_nil hl, List.append_nil]
  rcases h with rfl | ⟨lines, rfl⟩
  · rfl
  · have last : breaks (0 + lines.byteSize) ['\n'] = [(lines ++ ['\n']).byteSize] := by
      simp [breaks]
    rw [breaks_append, last, ← List.cons_append, List.getLastD_eq_getLast?, List.getLast?_concat,
      Option.getD_some]

end LineIndex

/-- The location of a cut is the end of the part before it. -/
theorem Text.location_append (front back : Text) :
    (front ++ back).location front.byteSize = front.endLocation := by
  obtain ⟨before, split, start⟩ := front.eq_append_lastLine
  have begins := LineIndex.getLastD_breaks start front.not_mem_lastLine
  rw [← split] at begins
  have line : Text.slice? (front ++ back) ⟨before.byteSize, front.byteSize⟩ =
      some front.lastLine := by
    have piece := Text.slice?_append before front.lastLine back
    rw [← Text.byteSize_append, ← List.append_assoc, ← split] at piece
    exact piece
  rw [Text.location, LineIndex.location, Text.boundaryBefore_append, LineIndex.begun_append, begins,
    line, List.length_cons, LineIndex.length_breaks, Option.getD_some]
  simp only [Text.endLocation, Text.endLine, Text.endColumn, Nat.add_comm]

end CellBindings
