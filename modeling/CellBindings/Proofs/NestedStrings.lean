import CellBindings.Proofs.TokenEnclosures

/-!
The starts and ends of strings nest. What is read of a text leaves some strings open, and apart from
their starts every start has its end, whatever brackets and blocks are left open or closed twice in
between. Where the whole text is read, no string is left open.
-/

namespace CellBindings

def Token.isStringMark (t : Token) : Bool := t.kind == .stringStart || t.kind == .stringEnd

/-- Starts and ends of strings that go together: each end is that of the latest start before it that
still has none. -/
inductive Balanced : List Token → Prop where
  | nil : Balanced []
  | pair {start stop inner rest} : stop.Ends start → Balanced inner → Balanced rest →
      Balanced (start :: (inner ++ stop :: rest))

inductive Unclosed : List Token → List Token → Prop where
  | none {marks} : Balanced marks → Unclosed [] marks
  | cons {start starts marks inner} : Unclosed starts marks → Balanced inner →
      Unclosed (start :: starts) (marks ++ start :: inner)

def openStrings (opened : List Enclosure) : List Token :=
  opened.filterMap fun
    | .string start => some start
    | _ => none

theorem mem_openStrings {t : Token} {opened : List Enclosure} :
    t ∈ openStrings opened ↔ .string t ∈ opened := by
  rw [openStrings, List.mem_filterMap]
  constructor
  · rintro ⟨e, mem, found⟩
    cases e with
    | string start =>
      cases found
      exact mem
    | _ => cases found
  · exact fun mem => ⟨.string t, mem, rfl⟩

namespace Balanced

variable {marks more : List Token}

theorem append (h : Balanced marks) (k : Balanced more) : Balanced (marks ++ more) := by
  induction h with
  | nil => exact k
  | @pair start stop inner rest ends first _ _ ih =>
    rw [List.cons_append, List.append_assoc, List.cons_append]
    exact .pair ends first ih

end Balanced

namespace Unclosed

variable {starts marks : List Token} {start stop : Token}

theorem append {more : List Token} (h : Unclosed starts marks) (k : Balanced more) :
    Unclosed starts (marks ++ more) := by
  cases h with
  | none first => exact .none (first.append k)
  | @cons start starts marks inner outer first =>
    rw [List.append_assoc, List.cons_append]
    exact .cons outer (first.append k)

theorem starting (h : Unclosed starts marks) (start : Token) :
    Unclosed (start :: starts) (marks ++ [start]) :=
  .cons h .nil

theorem ending (h : Unclosed (start :: starts) marks) (ends : stop.Ends start) :
    Unclosed starts (marks ++ [stop]) := by
  cases h with
  | @cons _ _ marks inner outer first =>
    rw [List.append_assoc, List.cons_append]
    exact outer.append (.pair ends first .nil)

theorem balanced (h : Unclosed [] marks) : Balanced marks := by
  cases h with
  | none all => exact all

end Unclosed

section Tokens

variable {t : Token} {earlier : List Token} {opened : List Enclosure}

/-- What a bracket or `end` closes is inside all open strings. -/
theorem openStrings_close {closes bars : Enclosure → Bool}
    (passes : ∀ start, closes (.string start) = false)
    (stops : ∀ start, bars (.string start) = true) (opened : List Enclosure) :
    openStrings (Enclosure.close closes bars opened) = openStrings opened := by
  have kept : ∀ left, Enclosure.close? closes bars opened = some left →
      openStrings left = openStrings opened := by
    induction opened with
    | nil => exact fun left found => (by cases found)
    | cons e outer ih =>
      intro left found
      rw [Enclosure.close?] at found
      cases e with
      | string start =>
        rw [passes, stops] at found
        cases found
      | _ =>
        split at found
        · cases found
          rfl
        · split at found
          · cases found
          · exact ih left found
  unfold Enclosure.close
  cases found : Enclosure.close? closes bars opened with
  | none => rfl
  | some left => exact kept left found

/-- In code, only the start of a string opens one, and none is closed. -/
theorem openStrings_encloseCode (other : t.kind ≠ .stringStart) (last : Option Token)
    (opened : List Enclosure) : openStrings (t.encloseCode last opened) = openStrings opened := by
  unfold Token.encloseCode
  split
  · next starts => exact absurd starts other
  · split
    case h_4 | h_5 | h_6 => exact openStrings_close (fun _ => rfl) (fun _ => rfl) opened
    all_goals rfl
  · exact openStrings_close (fun _ => rfl) (fun _ => rfl) opened
  · split
    · rfl
    · rfl
  · rfl

theorem openStrings_part (inside : InString earlier) (other : t.kind ≠ .stringEnd) :
    openStrings (enclosures (t :: earlier)) = openStrings (enclosures earlier) := by
  by_cases bracket : t.kind = .punctuation
  · obtain ⟨start, outer, same⟩ := inside
    simp only [enclosures, same, Token.enclose, bracket]
    rfl
  · rw [enclosures_part inside ⟨other, bracket⟩]

/-- The strings open behind some tokens are those that they start and do not end. -/
theorem AllFit.unclosed (h : AllFit earlier) :
    Unclosed (openStrings (enclosures earlier)) (earlier.reverse.filter Token.isStringMark) := by
  induction h with
  | nil => exact .none .nil
  | @cons t earlier fits _ ih =>
    rw [List.reverse_cons, List.filter_append]
    by_cases ends : t.kind = .stringEnd
    · obtain ⟨start, outer, same, closing⟩ := fits.ends ends
      have mark : [t].filter Token.isStringMark = [t] := by simp [Token.isStringMark, ends]
      have left : enclosures (t :: earlier) = outer := by
        simp [enclosures, same, Token.enclose, ends]
      rw [mark, left]
      rw [same] at ih
      exact ih.ending closing
    · by_cases starts : t.kind = .stringStart
      · have mark : [t].filter Token.isStringMark = [t] := by simp [Token.isStringMark, starts]
        have more : enclosures (t :: earlier) = .string t :: enclosures earlier := by
          rw [enclosures, enclose_code (fits.starts starts)]
          simp [Token.encloseCode, starts]
        rw [mark, more]
        exact ih.starting t
      · have mark : [t].filter Token.isStringMark = [] := by
          simp [Token.isStringMark, starts, ends]
        have same : openStrings (enclosures (t :: earlier)) = openStrings (enclosures earlier) := by
          by_cases inside : InString earlier
          · exact openStrings_part inside ends
          · rw [enclosures, enclose_code inside, openStrings_encloseCode starts]
        rw [mark, List.append_nil, same]
        exact ih

/-- Of tokens that all fit, each fits those before it. -/
theorem AllFit.split {before after : List Token} (h : AllFit (after ++ t :: before)) :
    t.Fits before ∧ AllFit before := by
  induction after with
  | nil =>
    cases h with
    | cons first rest => exact ⟨first, rest⟩
  | cons u after ih =>
    cases h with
    | cons _ rest => exact ih rest

end Tokens

/-- Where no string is open at the end, none is among the enclosures. -/
theorem Enclosed.openStrings_eq_nil {s : Scanner} (h : Enclosed s) (closed : s.openAtEnd = none) :
    openStrings (enclosures s.emitted) = [] := by
  have none (frame : Frame) (mem : frame ∈ s.frames) (delimiter : Delimiter) (start : Nat) :
      frame.kind ≠ .string delimiter start := by
    intro kind
    unfold Scanner.openAtEnd at closed
    split at closed
    · cases closed
    · have all := List.findSome?_eq_none_iff.mp closed frame (List.mem_reverse.mpr mem)
      simp [kind] at all
  have frames := h.frames
  generalize s.frames = fs at none frames
  generalize enclosures s.emitted = opened at frames ⊢
  induction frames with
  | nil => rfl
  | @cons frame e frames opened first _ ih =>
    have rest := ih fun frame mem => none frame (List.mem_cons_of_mem _ mem)
    have other := none frame List.mem_cons_self
    unfold Frame.Shows at first
    generalize frame.kind = kind at first other
    cases first with
    | string _ _ => exact absurd rfl (other _ _)
    | _ => exact rest

/-- The strings of a text that is read to its end nest. Behind any of its tokens, the open strings
are those started and not ended there, and the next token goes with what is open: chunks and ends
stand directly in a string, an end has the delimiter of the string's start, and directly in a string,
that is outside the brackets of interpolations, no gap stands before the token. -/
theorem strings_well_nested (text : Text) (ts : List Token) (ok : tokenize text = .ok ts) :
    Balanced (ts.filter Token.isStringMark) ∧
      ∀ before t after, ts = before ++ t :: after →
        Unclosed (openStrings (enclosures before.reverse)) (before.filter Token.isStringMark) ∧
          t.Fits before.reverse := by
  obtain ⟨n, s, turns, -, closed, rfl⟩ := tokenize_turns ok
  have enclosed := turns.enclosed .initial
  constructor
  · have all := enclosed.fit.unclosed
    rw [enclosed.openStrings_eq_nil closed] at all
    exact all.balanced
  · intro before t after split
    have emitted : s.emitted = after.reverse ++ t :: before.reverse := by
      rw [← List.reverse_reverse s.emitted]
      simp [show s.emitted.reverse = _ from split]
    have fit := enclosed.fit
    rw [emitted] at fit
    obtain ⟨fits, front⟩ := fit.split
    have marks := front.unclosed
    rw [List.reverse_reverse] at marks
    exact ⟨marks, fits⟩

/-- A bracket that is never closed and a string with a marker, both inside an interpolation. -/
theorem chunk_behind_interpolation_fits :
    ∃ before : List Token, ∃ chunk stop : Token,
      tokenize ['\x22', '$', '(', '[', 'r', '\x22', 'x', '\x22', 'i', ' ', ')', 'b', '\x22'] =
        .ok (before ++ chunk :: [stop]) ∧ chunk.text = ['b'] ∧ stop.text = ['\x22'] ∧
      Balanced ((before ++ chunk :: [stop]).filter Token.isStringMark) ∧
      Unclosed [⟨.stringStart, ['\x22'], ⟨0, 1⟩, true⟩] (before.filter Token.isStringMark) ∧
      chunk.Fits before.reverse := by
  have ok : tokenize ['\x22', '$', '(', '[', 'r', '\x22', 'x', '\x22', 'i', ' ', ')', 'b', '\x22'] =
      .ok ([⟨.stringStart, ['\x22'], ⟨0, 1⟩, true⟩, ⟨.operator, ['$'], ⟨1, 2⟩, false⟩,
        ⟨.punctuation, ['('], ⟨2, 3⟩, false⟩, ⟨.punctuation, ['['], ⟨3, 4⟩, false⟩,
        ⟨.stringStart, ['r', '\x22'], ⟨4, 6⟩, false⟩, ⟨.stringChunk, ['x'], ⟨6, 7⟩, false⟩,
        ⟨.stringEnd, ['\x22', 'i'], ⟨7, 9⟩, false⟩, ⟨.punctuation, [')'], ⟨10, 11⟩, true⟩] ++
        ⟨.stringChunk, ['b'], ⟨11, 12⟩, false⟩ :: [⟨.stringEnd, ['\x22'], ⟨12, 13⟩, false⟩]) := by
    rw [tokenize_of_closed (by decide +kernel)]
    exact congrArg Except.ok (by decide +kernel)
  obtain ⟨nested, inside⟩ := strings_well_nested _ _ ok
  obtain ⟨unclosed, fits⟩ := inside _ _ _ rfl
  exact ⟨_, _, _, ok, rfl, rfl, nested, unclosed, fits⟩

end CellBindings
