import CellBindings.Proofs.ScannerMoves
import CellBindings.Proofs.TokenRuns

/-!
Where tokens stand. Each token spells the piece of the text that its span names, tokens follow one
another without overlap, and only the last one can be an error. One invariant of the scanner says
all of it: the moves keep it, so every run does.
-/

namespace CellBindings

theorem Text.byteSize_pos {text : Text} (h : text ≠ []) : 0 < text.byteSize := by
  cases text with
  | nil => exact absurd rfl h
  | cons c cs =>
    have := c.utf8Size_pos
    simp only [Text.byteSize_cons]
    omega

theorem Text.isBoundary_of_append {text front back : Text} (h : text = front ++ back) :
    text.IsBoundary front.byteSize := by
  rw [h, Text.IsBoundary, Text.splitAt?_append]
  rfl

def Token.StandsIn (text : Text) (t : Token) : Prop :=
  ∃ front back, text = front ++ (t.text ++ back) ∧
    t.span = ⟨front.byteSize, front.byteSize + t.text.byteSize⟩

theorem Token.StandsIn.nonempty {text : Text} {t : Token} (h : t.StandsIn text)
    (hn : t.text ≠ []) : t.span.start < t.span.stop := by
  obtain ⟨front, back, _, hs⟩ := h
  have := Text.byteSize_pos hn
  rw [hs]
  dsimp only
  omega

theorem Token.StandsIn.boundaries {text : Text} {t : Token} (h : t.StandsIn text) :
    text.IsBoundary t.span.start ∧ text.IsBoundary t.span.stop := by
  obtain ⟨front, back, hf, hs⟩ := h
  rw [hs]
  refine ⟨Text.isBoundary_of_append hf, ?_⟩
  have past := @Text.isBoundary_of_append text (front ++ t.text) back (by simpa using hf)
  simpa using past

/-- A scanner that has read all of the text but the rest, and what it knows of its tokens. -/
structure Placed (text : Text) (s : Scanner) (rest : Text) : Prop where
  cut : ∃ front, text = front ++ rest ∧ front.byteSize = s.offset
  standing : ∀ t ∈ s.emitted, t.StandsIn text ∧ t.text ≠ []
  read : ∀ t ∈ s.emitted, t.kind ≠ .error
  past : ∀ t ∈ s.emitted, t.span.stop ≤ s.offset
  apart : s.emitted.Pairwise fun later earlier => earlier.span.stop ≤ later.span.start
  strings : ∀ frame ∈ s.frames, ∀ delimiter start, frame.kind = .string delimiter start →
    ∃ t ∈ s.emitted, t.span.start = start

namespace Placed

variable {text rest : Text} {s t : Scanner}

theorem initial (text : Text) : Placed text .initial text where
  cut := ⟨[], rfl, rfl⟩
  standing := by simp [Scanner.initial]
  read := by simp [Scanner.initial]
  past := by simp [Scanner.initial]
  apart := by simp [Scanner.initial]
  strings := by simp [Scanner.initial]

theorem emit {kind : Token.Kind} {lexeme : Text} (h : Placed text s (lexeme ++ rest))
    (hn : lexeme ≠ []) (hk : kind ≠ .error) : Placed text (s.emit kind lexeme) rest := by
  obtain ⟨front, hf, hs⟩ := h.cut
  refine ⟨⟨front ++ lexeme, by simp [hf], by simp [hs, Scanner.emit]⟩, ?_, ?_, ?_, ?_, ?_⟩
  · intro t ht
    rcases List.mem_cons.mp ht with rfl | ht
    · exact ⟨⟨front, rest, hf, by simp [hs]⟩, hn⟩
    · exact h.standing t ht
  · intro t ht
    rcases List.mem_cons.mp ht with rfl | ht
    · exact hk
    · exact h.read t ht
  · intro t ht
    rcases List.mem_cons.mp ht with rfl | ht
    · exact Nat.le_refl _
    · exact Nat.le_trans (h.past t ht) (Nat.le_add_right _ _)
  · exact List.pairwise_cons.mpr ⟨h.past, h.apart⟩
  · intro frame hm delimiter start hd
    obtain ⟨t, ht, hp⟩ := h.strings frame hm delimiter start hd
    exact ⟨t, List.mem_cons_of_mem _ ht, hp⟩

theorem skip {gap : Text} (h : Placed text s (gap ++ rest)) : Placed text (s.skip gap) rest := by
  obtain ⟨front, hf, hs⟩ := h.cut
  refine ⟨⟨front ++ gap, by simp [hf], by simp [hs, Scanner.skip]⟩, h.standing, h.read, ?_,
    h.apart, h.strings⟩
  intro t ht
  exact Nat.le_trans (h.past t ht) (Nat.le_add_right _ _)

theorem steer (h : Placed text s rest) (steers : Steers s t) : Placed text t rest := by
  obtain ⟨offset, emitted, _, strings⟩ := steers
  refine ⟨offset ▸ h.cut, emitted ▸ h.standing, emitted ▸ h.read, ?_, emitted ▸ h.apart, ?_⟩
  · rw [offset, emitted]
    exact h.past
  · intro frame hm delimiter start hk
    rw [emitted]
    rcases strings frame hm delimiter start hk with ⟨old, ho, same⟩ | ⟨t, ht, _, hp⟩
    · exact h.strings old ho delimiter start (same.trans hk)
    · exact ⟨t, List.mem_of_mem_head? ht, hp⟩

theorem flagged (h : Placed text s rest) (flag : Bool) :
    Placed text { s with spaced := flag } rest :=
  ⟨h.cut, h.standing, h.read, h.past, h.apart, h.strings⟩

theorem moves {after : Text} (h : Placed text s rest) (m : Moves s rest t after) :
    Placed text t after := by
  induction m with
  | done => exact h
  | emit kind hn hk _ ih => exact ih (h.emit hn hk.1)
  | breakLine _ ih =>
    have passed := @emit text _ _ .newline ['\n'] h (by simp) (by decide)
    exact ih (passed.flagged true)
  | skip _ _ ih => exact ih h.skip
  | steer steers _ ih => exact ih (h.steer steers)

/-- A token that starts before another one stops before it. -/
theorem stop_le (h : Placed text s rest) {t u : Token} (ht : t ∈ s.emitted) (hu : u ∈ s.emitted)
    (before : t.span.start < u.span.start) : t.span.stop ≤ u.span.start := by
  have filled := (h.standing u hu).1.nonempty (h.standing u hu).2
  obtain ⟨later, earlier, split⟩ := List.append_of_mem ht
  have apart := h.apart
  rw [split] at apart hu
  obtain ⟨_, below, across⟩ := List.pairwise_append.mp apart
  rcases List.mem_append.mp hu with hu | hu
  · exact across u hu t List.mem_cons_self
  · rcases List.mem_cons.mp hu with rfl | hu
    · omega
    · have := (List.pairwise_cons.mp below).1 u hu
      omega

theorem ordered (h : Placed text s rest) : Ordered s.tokens where
  nonempty t ht :=
    have stands := h.standing t (List.mem_reverse.mp ht)
    stands.1.nonempty stands.2
  apart := List.pairwise_reverse.mpr h.apart

end Placed

def OpensAt (s : Scanner) (rest : Text) (start : Nat) : Prop :=
  (∃ t ∈ s.emitted, t.span.start = start) ∨ rest ≠ [] ∧ start = s.offset

section Run

variable {text rest : Text} {s : Scanner}

/-- What is open at the end is the string of a frame. -/
theorem openAtEnd_frame {e : Unterminated} (he : s.openAtEnd = some e) :
    ∃ frame ∈ s.frames, ∃ delimiter, frame.kind = .string delimiter e.start := by
  unfold Scanner.openAtEnd at he
  split at he
  · next delimiter start pending frames hs =>
    cases he
    exact ⟨⟨.string delimiter start, pending⟩, by simp [hs], delimiter, rfl⟩
  · obtain ⟨frame, hm, hf⟩ := List.exists_of_findSome?_eq_some he
    split at hf
    · next delimiter start hk =>
      cases hf
      exact ⟨frame, List.mem_reverse.mp hm, delimiter, hk⟩
    · cases hf

theorem openAtEnd_opensAt (h : Placed text s []) {e : Unterminated}
    (he : s.openAtEnd = some e) : OpensAt s [] e.start := by
  obtain ⟨frame, mem, delimiter, kind⟩ := openAtEnd_frame he
  exact .inl (h.strings frame mem delimiter e.start kind)

theorem Halts.opensAt {failure : Option Unterminated} (halts : Halts s rest failure)
    (h : Placed text s rest) : ∀ e ∈ failure, OpensAt s rest e.start := by
  intro e he
  rcases halts with ⟨rfl, left⟩ | ⟨c, cs, other, rfl, failed, left⟩
  · exact openAtEnd_opensAt h (left.symm.trans he)
  · obtain rfl : other = e := Option.some.inj (left.symm.trans he)
    exact .inr ⟨by simp, step_error failed⟩

/-- What a run leaves open starts at one of its tokens, or where it stopped. -/
theorem run_placed (h : Placed text s rest) :
    ∃ after, Placed text (s.run rest).1 after ∧
      ∀ e ∈ (s.run rest).2, OpensAt (s.run rest).1 after e.start := by
  obtain ⟨n, after, turns, halts⟩ := run_turns s rest
  have placed := h.moves turns.moves
  exact ⟨after, placed, halts.opensAt placed⟩

/-- Where a construct is left open, the text is cut between tokens. -/
theorem Placed.opening (h : Placed text s rest) {start : Nat} (ho : OpensAt s rest start) :
    ∃ front back, text = front ++ back ∧ front.byteSize = start ∧ back ≠ [] ∧
      ∀ t ∈ s.emitted, t.span.start < start → t.span.stop ≤ start := by
  rcases ho with ⟨u, hu, rfl⟩ | ⟨hn, rfl⟩
  · obtain ⟨⟨front, back, hf, hs⟩, hn⟩ := h.standing u hu
    refine ⟨front, u.text ++ back, hf, by rw [hs], by simp [hn], fun t ht => h.stop_le ht hu⟩
  · obtain ⟨front, hf, hs⟩ := h.cut
    exact ⟨front, rest, hf, hs, hn, fun t ht _ => h.past t ht⟩

end Run

def ErrorLast (ts : List Token) : Prop :=
  ∀ before t after, ts = before ++ t :: after → t.kind = .error → after = []

theorem errorLast_of_read {ts : List Token} (h : ∀ t ∈ ts, t.kind ≠ .error) : ErrorLast ts :=
  fun before t after split hk => absurd hk (h t (by simp [split]))

theorem errorLast_concat {ts : List Token} (h : ∀ t ∈ ts, t.kind ≠ .error) (last : Token) :
    ErrorLast (ts ++ [last]) := by
  intro before t after split hk
  cases after.eq_nil_or_concat with
  | inl hn => exact hn
  | inr hc =>
    obtain ⟨init, final, rfl⟩ := hc
    have joined : ts ++ [last] = (before ++ t :: init) ++ [final] := by simpa using split
    have front := (List.append_inj' joined rfl).1
    exact absurd hk (h t (by simp [front]))

structure WellPlaced (text : Text) (ts : List Token) : Prop where
  standing : ∀ t ∈ ts, t.StandsIn text
  ordered : Ordered ts
  errorLast : ErrorLast ts

/-- The tokens before a cut between tokens, and one for all of the text behind it. -/
theorem Placed.recovered {text rest front back : Text} {s : Scanner} (h : Placed text s rest)
    (cut : text = front ++ back) (hn : back ≠ [])
    (between : ∀ t ∈ s.emitted, t.span.start < front.byteSize → t.span.stop ≤ front.byteSize)
    (spaced : Bool) :
    WellPlaced text (s.tokens.filter (·.span.start < front.byteSize) ++
      [⟨.error, back, ⟨front.byteSize, text.byteSize⟩, spaced⟩]) := by
  have kept : ∀ t ∈ s.tokens.filter (·.span.start < front.byteSize),
      t ∈ s.emitted ∧ t.span.stop ≤ front.byteSize := by
    intro t ht
    obtain ⟨hm, hl⟩ := List.mem_filter.mp ht
    have hm := List.mem_reverse.mp hm
    exact ⟨hm, between t hm (of_decide_eq_true hl)⟩
  have size : text.byteSize = front.byteSize + back.byteSize := by rw [cut, Text.byteSize_append]
  have filled := Text.byteSize_pos hn
  refine ⟨fun t ht => ?_, ordered_append.mpr ⟨?_, ?_, ?_⟩, ?_⟩
  · rcases List.mem_append.mp ht with ht | ht
    · exact (h.standing t (kept t ht).1).1
    · cases List.mem_singleton.mp ht
      exact ⟨front, [], by simpa using cut, by rw [size]⟩
  · exact ⟨fun t ht => h.ordered.nonempty t ((List.mem_filter.mp ht).1),
      h.ordered.apart.sublist List.filter_sublist⟩
  · refine ⟨fun t ht => ?_, List.pairwise_singleton _ _⟩
    cases List.mem_singleton.mp ht
    dsimp only
    omega
  · intro a ha b hb
    cases List.mem_singleton.mp hb
    exact (kept a ha).2
  · exact errorLast_concat (fun t ht => h.read t (kept t ht).1) _

theorem tokenizeRecovering_wellPlaced (text : Text) :
    WellPlaced text (tokenizeRecovering text) := by
  obtain ⟨after, placed, opens⟩ := run_placed (Placed.initial text)
  unfold tokenizeRecovering
  generalize Scanner.initial.run text = result at placed opens
  obtain ⟨s, open?⟩ := result
  cases open? with
  | none =>
    have read : ∀ t ∈ s.tokens, t.kind ≠ .error :=
      fun t ht => placed.read t (List.mem_reverse.mp ht)
    exact ⟨fun t ht => (placed.standing t (List.mem_reverse.mp ht)).1, placed.ordered,
      errorLast_of_read read⟩
  | some e =>
    obtain ⟨front, back, hf, hs, hn, between⟩ := placed.opening (opens e rfl)
    have cut : text.splitAt? e.start = some (front, back) := by
      rw [hf, ← hs]
      exact Text.splitAt?_append front back
    simp only [cut, Option.getD_some]
    rw [← hs] at between ⊢
    exact placed.recovered hf hn between _

end CellBindings
