import CellBindings.Proofs.NestedStrings

/-!
Reading a text with and without recovery. Where the whole text can be read, both give the same
tokens. Where a construct is left open, it opens at the place that the failure names, and the
recovered tokens are those read before this place and one for the rest of the text.
-/

namespace CellBindings

def Construct.Opens : Construct → Text → Prop
  | .comment, text => ['#', '='] <+: text
  | .char, text => ['\x27'] <+: text
  | .string, text => ['\x22'] <+: text ∨ ['\x60'] <+: text ∨
      ∃ name, Text.IsName name ∧ name ++ ['\x22'] <+: text

section Steps

variable {s : Scanner} {c : Char} {cs : Text} {e : Unterminated}

theorem comment_opens (h : s.comment cs = .error e) : e.construct.Opens ('#' :: cs) := by
  unfold Scanner.comment at h
  split at h
  · next inside =>
    split at h
    · cases h
      exact List.prefix_append ['#', '='] inside
    · cases h
  · cases h

theorem quote_opens (h : s.quote cs = .error e) : e.construct.Opens ('\x27' :: cs) := by
  unfold Scanner.quote at h
  split at h
  · cases h
  · split at h
    · cases h
      exact List.prefix_append ['\x27'] cs
    · cases h

theorem opaqueString_construct {marker text : Text} (h : s.opaqueString marker text = .error e) :
    e.construct = .string := by
  unfold Scanner.opaqueString at h
  dsimp only at h
  split at h
  · cases h
    rfl
  · cases h

theorem name_opens (start : isNameStart c = true) (h : s.name c cs = .error e) :
    e.construct.Opens (c :: cs) := by
  have same := Text.cutName_append cs
  unfold Scanner.name at h
  dsimp only at h
  split at h
  · next quoted =>
    split at h
    · cases h
    · rw [opaqueString_construct h]
      obtain ⟨rest, split⟩ := head_front (beq_iff_eq.mp quoted)
      refine .inr (.inr ⟨c :: (Text.cutName cs).1, isName_cutName start cs, rest, ?_⟩)
      rw [List.append_assoc, split, List.cons_append, same]
  · cases h

theorem codeStep_opens (h : s.codeStep c cs = .error e) : e.construct.Opens (c :: cs) := by
  unfold Scanner.codeStep at h
  split at h
  case h_2 => exact comment_opens h
  case h_13 => exact quote_opens h
  case h_15 =>
    split at h
    · cases h
    · split at h
      · cases h
      · split at h
        · next start => exact name_opens start h
        · cases h
  -- the other characters are always read
  all_goals cases h

/-- A step that fails stands before the start of what is not closed. -/
theorem step_opens (h : s.step c cs = .error e) : e.construct.Opens (c :: cs) := by
  unfold Scanner.step at h
  split at h
  · cases h
  · exact codeStep_opens h

end Steps

section Strings

variable {t : Token} {s : Scanner}

/-- A token that starts a string stands where the string opens. -/
theorem Token.Starts.opens {marker : Text} {delimiter : Delimiter} (h : t.Starts marker delimiter)
    (back : Text) : Construct.string.Opens (t.text ++ back) := by
  obtain ⟨-, marked, text⟩ := h
  rw [text, List.append_assoc]
  rcases marked with rfl | ⟨name, quoted⟩
  · cases delimiter with
    | quote => exact .inl (List.prefix_append _ _)
    | tripleQuote => exact .inl (List.prefix_append _ _)
    | backtick => exact .inr (.inl (List.prefix_append _ _))
    | tripleBacktick => exact .inr (.inl (List.prefix_append _ _))
  · refine .inr (.inr ⟨marker, name, ?_⟩)
    exact (List.prefix_append_right_inj marker).mpr (quoted.trans (List.prefix_append _ back))

theorem Unclosed.mem {starts marks : List Token} (h : Unclosed starts marks) :
    ∀ start ∈ starts, start ∈ marks := by
  induction h with
  | none => exact fun start mem => absurd mem List.not_mem_nil
  | cons _ _ ih =>
    intro start mem
    rcases List.mem_cons.mp mem with rfl | mem
    · simp
    · exact List.mem_append_left _ (ih start mem)

/-- The frame of a string goes back to a token that starts it. -/
theorem Enclosed.started (h : Enclosed s) {frame : Frame} (mem : frame ∈ s.frames)
    {delimiter : Delimiter} {start : Nat} (string : frame.kind = .string delimiter start) :
    ∃ t ∈ s.emitted, ∃ marker, t.Starts marker delimiter ∧ t.span.start = start := by
  have shown : ∃ t, .string t ∈ enclosures s.emitted ∧ ∃ marker, t.Starts marker delimiter ∧
      t.span.start = start := by
    have frames := h.frames
    generalize s.frames = fs at mem frames
    generalize enclosures s.emitted = opened at frames ⊢
    induction frames with
    | nil => cases mem
    | @cons first e _ outer shows _ ih =>
      rcases List.mem_cons.mp mem with rfl | mem
      · unfold Frame.Shows at shows
        rw [string] at shows
        cases shows with
        | string starts place => exact ⟨_, List.mem_cons_self, _, starts, place⟩
      · obtain ⟨t, found, starts⟩ := ih mem
        exact ⟨t, List.mem_cons_of_mem _ found, starts⟩
  obtain ⟨t, found, starts⟩ := shown
  have mark := h.fit.unclosed.mem t (mem_openStrings.mpr found)
  exact ⟨t, List.mem_reverse.mp (List.mem_filter.mp mark).1, starts⟩

theorem openAtEnd_string {e : Unterminated} (h : s.openAtEnd = some e) : e.construct = .string := by
  unfold Scanner.openAtEnd at h
  split at h
  · cases h
    rfl
  · obtain ⟨frame, -, found⟩ := List.exists_of_findSome?_eq_some h
    split at found
    · cases found
      rfl
    · cases found

end Strings

/-- What a run leaves open starts at the place that the failure names. -/
theorem Halts.opens {text rest : Text} {s : Scanner} {failure : Option Unterminated}
    (halts : Halts s rest failure) (placed : Placed text s rest) (enclosed : Enclosed s) :
    ∀ e ∈ failure, ∃ front back, text = front ++ back ∧ front.byteSize = e.start ∧
      e.construct.Opens back := by
  intro e he
  rcases halts with ⟨rfl, left⟩ | ⟨c, cs, other, rfl, failed, left⟩
  · have left : s.openAtEnd = some e := left.symm.trans he
    obtain ⟨frame, mem, delimiter, string⟩ := openAtEnd_frame left
    obtain ⟨t, emitted, marker, starts, place⟩ := enclosed.started mem string
    obtain ⟨⟨front, back, cut, span⟩, -⟩ := placed.standing t emitted
    refine ⟨front, t.text ++ back, cut, ?_, ?_⟩
    · rw [← place, span]
    · rw [openAtEnd_string left]
      exact starts.opens back
  · obtain rfl : other = e := Option.some.inj (left.symm.trans he)
    obtain ⟨front, cut, size⟩ := placed.cut
    exact ⟨front, c :: cs, cut, size.trans (step_error failed).symm, step_opens failed⟩

theorem Construct.Opens.ne_nil {construct : Construct} {text : Text} (h : construct.Opens text) :
    text ≠ [] := by
  rintro rfl
  cases construct with
  | comment => simp [Construct.Opens] at h
  | char => simp [Construct.Opens] at h
  | string => simp [Construct.Opens] at h

/-- Reading a text with recovery changes nothing where it can be read, and the tokens have no error
then. Where it cannot, the failure is placed inside the text, at a boundary where the construct
opens. The recovered tokens are then the first of those read up to the failure, none of them beyond
its place, and one error token from there to the end of the text. -/
theorem recovery_agrees (text : Text) :
    (∀ ts, tokenize text = .ok ts → tokenizeRecovering text = ts ∧ ∀ t ∈ ts, t.kind ≠ .error) ∧
    ∀ e, tokenize text = .error e →
      e.start < text.byteSize ∧
      (∃ front back, text.splitAt? e.start = some (front, back) ∧ e.construct.Opens back) ∧
      ∃ kept last, tokenizeRecovering text = kept ++ [last] ∧
        last.kind = .error ∧ last.span = ⟨e.start, text.byteSize⟩ ∧
        (∀ t ∈ kept, t.kind ≠ .error ∧ t.span.stop ≤ e.start) ∧
        kept <+: (Scanner.initial.run text).1.tokens := by
  obtain ⟨n, after, turns, halts⟩ := run_turns .initial text
  have accounted := (Accounted.initial text).moves turns.moves
  have enclosed := turns.enclosed .initial
  have opens := halts.opens accounted.toPlaced enclosed
  have places := halts.opensAt accounted.toPlaced
  constructor
  · intro ts ok
    refine ⟨tokenizeRecovering_of_ok ok, ?_⟩
    obtain ⟨-, s, -, run, -, rfl⟩ := tokenize_turns ok
    rw [run] at accounted
    exact fun t ht => accounted.read t (List.mem_reverse.mp ht)
  · intro e failed
    unfold tokenize at failed
    unfold tokenizeRecovering
    generalize Scanner.initial.run text = result at accounted opens places failed ⊢
    obtain ⟨s, failure⟩ := result
    cases failure with
    | none => cases failed
    | some e =>
      cases failed
      obtain ⟨front, back, rfl, size, opened⟩ := opens e rfl
      have cut : Text.splitAt? (front ++ back) e.start = some (front, back) := by
        rw [← size, Text.splitAt?_append]
      have inside := Text.byteSize_pos opened.ne_nil
      obtain ⟨-, -, -, -, -, between⟩ := accounted.toPlaced.opening (places e rfl)
      obtain ⟨dropped, split, -⟩ := accounted.before_open (places e rfl)
      refine ⟨?_, ⟨front, back, cut, opened⟩, s.tokens.filter (·.span.start < e.start), _, rfl, rfl,
        rfl, ?_, ⟨dropped, split.symm⟩⟩
      · rw [Text.byteSize_append]
        omega
      · intro t ht
        obtain ⟨mem, before⟩ := List.mem_filter.mp ht
        have mem := List.mem_reverse.mp mem
        exact ⟨accounted.read t mem, between t mem (of_decide_eq_true before)⟩

/-- A text that ends in an interpolation leaves the outermost string open, and what was read of the
inside of it is not kept. -/
example : let text := ['x', ' ', '\x22', '$', '(', '\x22', '\x22', 'a']
    tokenize text = .error ⟨.string, 2⟩ ∧ (Scanner.initial.run text).1.tokens.length = 7 ∧
      (tokenizeRecovering text).map Token.kind = [.identifier, .error] := by
  decide +kernel

end CellBindings
