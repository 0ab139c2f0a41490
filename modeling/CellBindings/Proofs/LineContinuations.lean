import Mathlib.Data.List.Forall2
import CellBindings.Proofs.LosslessTokens
import CellBindings.Proofs.ScannerSeams

/-!
Line breaks that end no statement. Behind a token that continues its line, a line break is read like
a blank, but for one thing: at statement level it forgets the question marks that wait for a colon.
Two scanners that differ only in how many question marks they wait for go through any text side by
side, and their tokens differ only in colons.
-/

namespace CellBindings

/-- The same token, but for a colon that the second one takes for that of a conditional
expression. -/
def Token.Loosened (t u : Token) : Prop :=
  t = u ∨ t.kind = .operator ∧ t.text = [':'] ∧ u = { t with kind := .ternaryColon }

structure Frame.Lags (f g : Frame) : Prop where
  kind : f.kind = g.kind
  pending : f.pendingTernary ≤ g.pendingTernary

/-- Two scanners at one place that differ only in the colons they wait for and have met: the first
waits for no more of them. -/
structure Scanner.Lags (a b : Scanner) : Prop where
  offset : a.offset = b.offset
  spaced : a.spaced = b.spaced
  typeNext : a.typeNext = b.typeNext
  emitted : List.Forall₂ Token.Loosened a.emitted b.emitted
  frames : List.Forall₂ Frame.Lags a.frames b.frames
  root : a.rootTernary ≤ b.rootTernary

namespace Token.Loosened

variable {t u : Token}

theorem refl (t : Token) : t.Loosened t := .inl rfl

theorem endsValue (h : t.Loosened u) : t.endsValue = u.endsValue := by
  rcases h with rfl | ⟨kind, text, rfl⟩
  · rfl
  · simp [Token.endsValue, kind, text]

/-- Both or none are a line break or end the line. -/
theorem endsLine (h : t.Loosened u) :
    (t.kind != .newline && !t.continuesLine) = (u.kind != .newline && !u.continuesLine) := by
  rcases h with rfl | ⟨kind, text, rfl⟩
  · rfl
  · simp [Token.continuesLine, kind, text]

end Token.Loosened

theorem Frame.Lags.refl (f : Frame) : f.Lags f := ⟨rfl, Nat.le_refl _⟩

theorem forall₂_head {α : Type} {R : α → α → Prop} {p : α → Bool} {xs ys : List α}
    (h : List.Forall₂ R xs ys) (same : ∀ x y, R x y → p x = p y) :
    xs.head?.any p = ys.head?.any p := by
  cases h with
  | nil => rfl
  | cons first _ => exact same _ _ first

namespace Scanner.Lags

variable {a b : Scanner}

theorem refl (s : Scanner) : s.Lags s :=
  ⟨rfl, rfl, rfl, List.forall₂_same.mpr fun t _ => .refl t,
    List.forall₂_same.mpr fun f _ => .refl f, Nat.le_refl _⟩

section Questions

theorem lastEndsValue (h : a.Lags b) : a.lastEndsValue = b.lastEndsValue :=
  forall₂_head h.emitted fun _ _ => Token.Loosened.endsValue

theorem endsLine (h : a.Lags b) :
    (a.emitted.head?.any fun t => t.kind != .newline && !t.continuesLine) =
      b.emitted.head?.any fun t => t.kind != .newline && !t.continuesLine :=
  forall₂_head h.emitted fun _ _ => Token.Loosened.endsLine

theorem atStatementLevel (h : a.Lags b) : a.atStatementLevel = b.atStatementLevel := by
  have frames := h.frames
  unfold Scanner.atStatementLevel
  generalize a.frames = fs, b.frames = gs at frames ⊢
  cases frames with
  | nil => rfl
  | cons first _ => simp only [first.kind]

theorem opensBlock (h : a.Lags b) (keyword : Keyword) :
    a.opensBlock keyword = b.opensBlock keyword := by
  simp only [Scanner.opensBlock, h.atStatementLevel, h.lastEndsValue]

theorem pending (h : a.Lags b) : a.pendingTernary ≤ b.pendingTernary := by
  have frames := h.frames
  unfold Scanner.pendingTernary
  generalize a.frames = fs, b.frames = gs at frames ⊢
  cases frames with
  | nil => exact h.root
  | cons first _ => exact first.pending

end Questions

section Changes

theorem emit (h : a.Lags b) (kind : Token.Kind) (lexeme : Text) :
    (a.emit kind lexeme).Lags (b.emit kind lexeme) := by
  refine ⟨?_, rfl, h.typeNext, ?_, h.frames, h.root⟩
  · simp [Scanner.emit, h.offset]
  · simp only [Scanner.emit, h.offset, h.spaced]
    exact .cons (.refl _) h.emitted

theorem skip (h : a.Lags b) (gap : Text) : (a.skip gap).Lags (b.skip gap) := by
  refine ⟨?_, rfl, h.typeNext, h.emitted, h.frames, h.root⟩
  simp [Scanner.skip, h.offset]

theorem enter (h : a.Lags b) (kind : FrameKind) : (a.enter kind).Lags (b.enter kind) :=
  ⟨h.offset, h.spaced, h.typeNext, h.emitted, .cons (.refl _) h.frames, h.root⟩

theorem reframe (h : a.Lags b) {fs gs : List Frame} (frames : List.Forall₂ Frame.Lags fs gs) :
    Scanner.Lags { a with frames := fs } { b with frames := gs } :=
  ⟨h.offset, h.spaced, h.typeNext, h.emitted, frames, h.root⟩

theorem retype (h : a.Lags b) (flag : Bool) :
    Scanner.Lags { a with typeNext := flag } { b with typeNext := flag } :=
  ⟨h.offset, h.spaced, rfl, h.emitted, h.frames, h.root⟩

theorem setTernary (h : a.Lags b) {n m : Nat} (le : n ≤ m) :
    (a.setTernary n).Lags (b.setTernary m) := by
  obtain ⟨offset, emitted, fs, root, spaced, typeNext⟩ := a
  obtain ⟨offset', emitted', gs, root', spaced', typeNext'⟩ := b
  cases fs with
  | nil =>
    obtain rfl := List.forall₂_nil_left_iff.mp h.frames
    exact ⟨h.offset, h.spaced, h.typeNext, h.emitted, .nil, le⟩
  | cons f fs =>
    cases gs with
    | nil => cases h.frames
    | cons g gs =>
      obtain ⟨first, rest⟩ := List.forall₂_cons.mp h.frames
      exact ⟨h.offset, h.spaced, h.typeNext, h.emitted, .cons ⟨first.kind, le⟩ rest, h.root⟩

/-- A colon that only the second scanner waits for. -/
theorem emitColon (h : a.Lags b) :
    (a.emit .operator [':']).Lags (b.emit .ternaryColon [':']) := by
  refine ⟨?_, rfl, h.typeNext, ?_, h.frames, h.root⟩
  · simp [Scanner.emit, h.offset]
  · simp only [Scanner.emit, h.offset, h.spaced]
    exact .cons (.inr ⟨rfl, rfl, rfl⟩) h.emitted

end Changes

end Scanner.Lags

theorem setTernary_self (s : Scanner) : s.setTernary s.pendingTernary = s := by
  obtain ⟨offset, emitted, frames, root, spaced, typeNext⟩ := s
  cases frames with
  | nil => rfl
  | cons frame frames => rfl

section Frames

variable {fs gs : List Frame}

theorem inIndex_lags (h : List.Forall₂ Frame.Lags fs gs) :
    Scanner.inIndex fs = Scanner.inIndex gs := by
  induction h with
  | nil => rfl
  | cons first _ ih =>
    rw [Scanner.inIndex, Scanner.inIndex, first.kind, ih]

theorem rel_getD {α β : Type} {R : α → β → Prop} {o : Option α} {p : Option β} {x : α} {y : β}
    (h : Option.Rel R o p) (hx : R x y) : R (o.getD x) (p.getD y) := by
  cases h with
  | none => exact hx
  | some found => exact found

/-- A bracket closes the same frames. -/
theorem closeBracket_lags (h : List.Forall₂ Frame.Lags fs gs) (kind : FrameKind) :
    List.Forall₂ Frame.Lags ((Scanner.closeBracket kind fs).getD fs)
      ((Scanner.closeBracket kind gs).getD gs) := by
  refine rel_getD ?_ h
  induction h with
  | nil => exact .none
  | cons first rest ih =>
    simp only [Scanner.closeBracket, first.kind]
    split
    · exact .some rest
    · split
      · exact .none
      · exact .none
      · exact ih

theorem closeBlock_lags (h : List.Forall₂ Frame.Lags fs gs) :
    List.Forall₂ Frame.Lags ((Scanner.closeBlock fs).getD fs)
      ((Scanner.closeBlock gs).getD gs) := by
  refine rel_getD ?_ h
  induction h with
  | nil => exact .none
  | cons first rest ih =>
    simp only [Scanner.closeBlock, first.kind]
    split
    · exact .some rest
    · exact ih
    · exact ih
    · exact .none

theorem findSome?_of_kinds {α : Type} {F : Frame → Option α}
    (same : ∀ f g : Frame, f.kind = g.kind → F f = F g)
    (h : List.Forall₂ (fun f g => f.kind = g.kind) fs gs) : fs.findSome? F = gs.findSome? F := by
  induction h with
  | nil => rfl
  | cons first _ ih => rw [List.findSome?_cons, List.findSome?_cons, same _ _ first, ih]

/-- The kinds of the frames decide what is open at the end. -/
theorem openAtEnd_congr {a b : Scanner} (h : a.frames.map Frame.kind = b.frames.map Frame.kind) :
    a.openAtEnd = b.openAtEnd := by
  have kinds : List.Forall₂ (fun f g => f.kind = g.kind) a.frames b.frames := by
    rwa [← List.forall₂_eq_eq_eq, List.forall₂_map_left_iff, List.forall₂_map_right_iff] at h
  unfold Scanner.openAtEnd
  generalize a.frames = fs, b.frames = gs at kinds ⊢
  cases kinds with
  | nil => rfl
  | @cons f g fs gs first rest =>
    have reversed := (List.forall₂_reverse_iff (R := fun f g : Frame => f.kind = g.kind)).mpr
      (.cons first rest)
    obtain ⟨kind, pending⟩ := f
    obtain ⟨kind', pending'⟩ := g
    obtain rfl : kind = kind' := first
    cases kind with
    | string delimiter start => rfl
    | paren | square | curly | block | interpolation =>
      exact findSome?_of_kinds (fun f g same => by simp only [same]) reversed

theorem Scanner.Lags.openAtEnd {a b : Scanner} (h : a.Lags b) : a.openAtEnd = b.openAtEnd := by
  refine openAtEnd_congr ?_
  rw [← List.forall₂_eq_eq_eq, List.forall₂_map_left_iff, List.forall₂_map_right_iff]
  exact h.frames.imp fun _ _ frame => frame.kind

theorem Scanner.Lags.leave {a b : Scanner} (h : a.Lags b) (kind : FrameKind) :
    (a.leave kind).Lags (b.leave kind) :=
  h.reframe (closeBracket_lags h.frames kind)

end Frames

inductive Alongside : Except Unterminated (Scanner × Text) →
    Except Unterminated (Scanner × Text) → Prop where
  | failed (e) : Alongside (.error e) (.error e)
  | went {a b rest} : a.Lags b → Alongside (.ok (a, rest)) (.ok (b, rest))

section Steps

variable {a b : Scanner} (h : a.Lags b)
include h

theorem lineBreak_lags : a.lineBreak.Lags b.lineBreak := by
  have reset := h.setTernary (Nat.le_refl 0)
  unfold Scanner.lineBreak
  rw [h.atStatementLevel]
  split
  · dsimp only
    rw [reset.endsLine]
    split
    · have broken := reset.emit .newline ['\n']
      exact ⟨broken.offset, rfl, broken.typeNext, broken.emitted, broken.frames, broken.root⟩
    · exact reset.skip ['\n']
  · exact h.skip ['\n']

theorem comment_alongside (cs : Text) : Alongside (a.comment cs) (b.comment cs) := by
  unfold Scanner.comment
  split
  · split
    · rw [h.offset]
      exact .failed _
    · exact .went (h.skip _)
  · exact .went (h.skip _)

theorem quote_alongside (cs : Text) : Alongside (a.quote cs) (b.quote cs) := by
  unfold Scanner.quote
  rw [h.spaced, h.lastEndsValue]
  split
  · exact .went (h.emit _ _)
  · split
    · rw [h.offset]
      exact .failed _
    · exact .went (h.emit _ _)

theorem atSign_alongside (cs : Text) : Alongside (.ok (a.atSign cs)) (.ok (b.atSign cs)) := by
  unfold Scanner.atSign
  split
  · exact .went (h.emit _ _)
  · split
    · exact .went (h.emit _ _)
    · exact .went (h.emit _ _)
  · exact .went (h.emit _ _)

theorem number_alongside (c : Char) (cs : Text) :
    Alongside (.ok (a.number c cs)) (.ok (b.number c cs)) :=
  .went (h.emit _ _)

theorem openString_lags (marker : Text) (delimiter : Delimiter) :
    (a.openString marker delimiter).Lags (b.openString marker delimiter) := by
  unfold Scanner.openString
  rw [h.offset]
  exact (h.emit _ _).enter _

theorem opaqueString_alongside (marker text : Text) :
    Alongside (a.opaqueString marker text) (b.opaqueString marker text) := by
  have opened := h.emit .stringStart (marker ++ (Delimiter.ofQuotes text).text)
  unfold Scanner.opaqueString
  dsimp only
  split
  · rw [h.offset]
    exact .failed _
  · split
    · exact .went (opened.emit _ _)
    · exact .went ((opened.emit _ _).emit _ _)

theorem word_lags (name rest : Text) : (a.word name rest).Lags (b.word name rest) := by
  have plain := h.retype false
  unfold Scanner.word
  dsimp only
  rw [h.typeNext]
  split
  · exact plain.emit _ _
  split
  · exact ((plain.emit _ _).enter _).retype true
  split
  · exact ((plain.emit _ _).enter _).retype true
  split
  · exact plain.emit _ _
  rw [inIndex_lags h.frames]
  split
  · exact plain.emit _ _
  · split
    · exact plain.emit _ _
    · exact (plain.emit _ _).enter _
  · split
    · exact plain.emit _ _
    · exact (plain.emit _ _).reframe (closeBlock_lags h.frames)
  · rw [plain.opensBlock]
    split
    · exact (plain.emit _ _).enter _
    · exact plain.emit _ _

theorem name_alongside (c : Char) (cs : Text) : Alongside (a.name c cs) (b.name c cs) := by
  unfold Scanner.name
  dsimp only
  split
  · split
    · exact .went (openString_lags h _ _)
    · exact opaqueString_alongside h _ _
  · exact .went (word_lags h _ _)

/-- A colon that only the second scanner waits for is the one thing that they tell apart. -/
theorem operate_lags (op rest : Text) : (a.operate op rest).Lags (b.operate op rest) := by
  have pending := h.pending
  unfold Scanner.operate
  rw [h.spaced]
  split
  · exact (h.setTernary (Nat.add_le_add_right pending 1)).emit _ _
  by_cases waits : 0 < a.pendingTernary
  · have both : 0 < b.pendingTernary := by omega
    simp only [waits, both]
    split
    · exact (h.setTernary (Nat.sub_le_sub_right pending 1)).emit _ _
    · exact h.emit _ _
  · simp only [waits, decide_false, Bool.and_false, Bool.false_and, Bool.false_eq_true, if_false]
    split
    · next colon =>
      simp only [Bool.and_eq_true, beq_iff_eq] at colon
      obtain ⟨⟨⟨rfl, _⟩, _⟩, _⟩ := colon
      have met : a.Lags (b.setTernary (b.pendingTernary - 1)) := by
        have met := h.setTernary (show a.pendingTernary ≤ b.pendingTernary - 1 by omega)
        rwa [setTernary_self] at met
      exact met.emitColon
    · exact h.emit _ _

theorem operator_alongside (c : Char) (cs : Text) :
    Alongside (.ok (a.operator c cs)) (.ok (b.operator c cs)) := by
  cases found : (Text.dottedOperator? (c :: cs)).or (Text.operator? (c :: cs)) with
  | none =>
    simp only [Scanner.operator, found]
    exact .went (h.emit _ _)
  | some op =>
    rw [operator_eq found, operator_eq found]
    exact .went (operate_lags h _ _)

theorem codeStep_alongside (c : Char) (cs : Text) :
    Alongside (a.codeStep c cs) (b.codeStep c cs) := by
  unfold Scanner.codeStep
  split
  case h_1 => exact .went (lineBreak_lags h)
  case h_2 => exact comment_alongside h cs
  case h_3 | h_4 => exact .went (h.emit _ _)
  case h_5 | h_6 | h_7 => exact .went ((h.emit _ _).enter _)
  case h_8 | h_9 | h_10 => exact .went ((h.emit _ _).leave _)
  case h_11 | h_12 => exact .went (openString_lags h _ _)
  case h_13 => exact quote_alongside h cs
  case h_14 => exact atSign_alongside h cs
  case h_15 =>
    have fraction : a.startsFraction cs = b.startsFraction cs := by
      simp only [Scanner.startsFraction, h.spaced, h.lastEndsValue]
    rw [fraction]
    split
    · exact .went (h.skip _)
    split
    · exact number_alongside h c cs
    split
    · exact name_alongside h c cs
    · exact operator_alongside h c cs

theorem stringStep_alongside (delimiter : Delimiter) (c : Char) (cs : Text) :
    Alongside (.ok (a.stringStep delimiter c cs)) (.ok (b.stringStep delimiter c cs)) := by
  unfold Scanner.stringStep
  dsimp only
  split
  · refine .went ((h.emit _ _).reframe ?_)
    have frames := h.frames
    generalize a.frames = fs, b.frames = gs at frames ⊢
    cases frames with
    | nil => exact .nil
    | cons _ rest => exact rest
  split
  · split
    · exact .went (((h.emit _ _).emit _ _).enter _)
    · split
      · exact .went ((h.emit _ _).emit _ _)
      · exact .went (h.emit _ _)
    · exact .went (h.emit _ _)
  split
  · split
    · exact .went (h.emit _ _)
    · exact .went (h.emit _ _)
  · exact .went (h.emit _ _)

theorem step_alongside (c : Char) (cs : Text) : Alongside (a.step c cs) (b.step c cs) := by
  have string := stringStep_alongside h
  have code := codeStep_alongside h c cs
  have frames := h.frames
  unfold Scanner.step
  generalize a.frames = fs, b.frames = gs at frames ⊢
  cases frames with
  | nil => exact code
  | @cons f g fs gs first rest =>
    obtain ⟨kind, pending⟩ := f
    obtain ⟨kind', pending'⟩ := g
    obtain rfl : kind = kind' := first.kind
    cases kind with
    | string delimiter start => exact string delimiter c cs
    | paren | square | curly | block | interpolation => exact code

omit h in
/-- Two scanners go through a text side by side, by induction on what is left of it. -/
theorem run_lags (h : a.Lags b) (text : Text) :
    (a.run text).1.Lags (b.run text).1 ∧ (a.run text).2 = (b.run text).2 := by
  induction a, text using Scanner.run.induct generalizing b with
  | case1 a =>
    rw [Scanner.run, Scanner.run]
    exact ⟨h, h.openAtEnd⟩
  | case2 a c cs e failed =>
    have step := step_alongside h c cs
    rw [failed] at step
    generalize other : b.step c cs = result at step
    cases step
    rw [run_of_error failed, run_of_error other]
    exact ⟨h, rfl⟩
  | case3 a c cs t rest ok ih =>
    have step := step_alongside h c cs
    rw [ok] at step
    generalize other : b.step c cs = result at step
    cases step with
    | went along =>
      rw [run_of_step ok, run_of_step other]
      exact ih along

end Steps

def Scanner.continues (s : Scanner) : Bool := s.emitted.head?.any Token.continuesLine

section LastTokens

variable {s t : Scanner} {c : Char} {cs rest : Text}

theorem stringStep_continues (s : Scanner) (delimiter : Delimiter) (c : Char) (cs : Text) :
    (s.stringStep delimiter c cs).1.continues = false := by
  unfold Scanner.stringStep
  dsimp only
  split
  · rfl
  split
  · split
    · rfl
    · split
      · rfl
      · rfl
    · rfl
  split
  · split
    · rfl
    · rfl
  · rfl

theorem comment_skips (h : s.comment cs = .ok (t, rest)) : ∃ gap, t = s.skip gap := by
  unfold Scanner.comment at h
  split at h
  · split at h
    · cases h
    · cases h
      exact ⟨_, rfl⟩
  · cases h
    exact ⟨_, rfl⟩

theorem quote_continues (h : s.quote cs = .ok (t, rest)) : t.continues = false := by
  unfold Scanner.quote at h
  split at h
  · cases h
    rfl
  · split at h
    · cases h
    · cases h
      rfl

theorem word_continues (s : Scanner) (name rest : Text) : (s.word name rest).continues = false := by
  unfold Scanner.word
  dsimp only
  split
  · rfl
  split
  · rfl
  split
  · rfl
  split
  · rfl
  split
  · rfl
  · split
    · rfl
    · rfl
  · split
    · rfl
    · rfl
  · split
    · rfl
    · rfl

theorem name_continues (h : s.name c cs = .ok (t, rest)) : t.continues = false := by
  unfold Scanner.name at h
  dsimp only at h
  split at h
  · split at h
    · cases h
      rfl
    · unfold Scanner.opaqueString at h
      dsimp only at h
      split at h
      · cases h
      · cases h
        rfl
  · cases h
    exact word_continues s _ _

theorem number_continues (s : Scanner) (c : Char) (cs : Text) :
    (s.number c cs).1.continues = false := by
  unfold Scanner.number
  generalize Text.cutNumber c cs = cut
  obtain ⟨float, digits, rest⟩ := cut
  cases float <;> rfl

theorem setTernary_kinds (s : Scanner) (count : Nat) :
    (s.setTernary count).frames.map Frame.kind = s.frames.map Frame.kind := by
  unfold Scanner.setTernary
  split
  · rfl
  · next frames => rw [frames, List.map_cons, List.map_cons]

theorem operate_kinds (s : Scanner) (op rest : Text) :
    (s.operate op rest).frames.map Frame.kind = s.frames.map Frame.kind := by
  unfold Scanner.operate
  split
  · exact setTernary_kinds s _
  split
  · exact setTernary_kinds s _
  · rfl

/-- To a colon, one blank is like another. -/
theorem operate_blank {w : Text} (hw : Text.Parted w) (s : Scanner) (op : Text) :
    s.operate op w = s.operate op [' '] := by
  unfold Scanner.operate
  obtain ⟨c, v, rfl, rfl | rfl⟩ := hw
  · rfl
  · rfl

/-- An operator at the end of a text goes on over a line break or not, whether or not a blank makes
it the colon of a conditional expression. -/
theorem operate_continues {op : Text} (goes : (s.operate op []).continues = true) :
    (s.operate op [' ']).continues = true := by
  unfold Scanner.operate at goes ⊢
  split
  · next question => rwa [if_pos question] at goes
  · next other =>
    rw [if_neg other] at goes
    split
    · rfl
    · simpa using goes

/-- Behind a line break that becomes a token, no line goes on. -/
theorem lineBreak_silent (goes : s.lineBreak.continues = true) : s.lineBreak.emitted = s.emitted := by
  unfold Scanner.lineBreak at goes ⊢
  split
  · next level =>
    rw [if_pos level] at goes
    dsimp only at goes ⊢
    split
    · next breaks =>
      rw [if_pos breaks] at goes
      cases goes
    · exact (Steers.setTernary s 0).emitted
  · rfl

/-- An operator at the end of a text that continues the line. -/
theorem operator_continued (h : s.operator c cs = (t, [])) (goes : t.continues = true) :
    ∃ u : Scanner, u.continues = true ∧ u.frames.map Frame.kind = t.frames.map Frame.kind ∧
      ∀ w, Text.Parted w → s.operator c (cs ++ w) = (u, w) := by
  cases found : (Text.dottedOperator? (c :: cs)).or (Text.operator? (c :: cs)) with
  | none =>
    simp only [Scanner.operator, found] at h
    obtain ⟨rfl, _⟩ := Prod.mk.inj h
    cases goes
  | some op =>
    rw [operator_eq found] at h
    obtain ⟨same, none⟩ := Prod.mk.inj h
    rw [none] at same
    subst same
    refine ⟨s.operate op [' '], operate_continues goes, ?_, fun w hw => ?_⟩
    · rw [operate_kinds, operate_kinds]
    · have front := length_le_of_front (operator_front found).2
      rw [operator_eq ((operator_found hw c cs).trans found), drop_behind front, none,
        List.nil_append, operate_blank hw]

/-- The step that reads the last token of a text, if that token continues the line: what it does
with a blank or a line break behind the text does not depend on what follows. -/
theorem codeStep_continued (h : s.codeStep c cs = .ok (t, [])) (fresh : t.emitted ≠ s.emitted)
    (goes : t.continues = true) :
    isBlank c = false ∧ ∃ u : Scanner, u.continues = true ∧
      u.frames.map Frame.kind = t.frames.map Frame.kind ∧
        ∀ w, Text.Parted w → s.codeStep c (cs ++ w) = .ok (u, w) := by
  have stops {u : Scanner} (same : u = t) (ends : u.continues = false) : False := by
    rw [same, goes] at ends
    cases ends
  unfold Scanner.codeStep at h
  split at h
  case h_1 =>
    cases h
    exact absurd (lineBreak_silent goes) fresh
  case h_2 =>
    obtain ⟨gap, rfl⟩ := comment_skips h
    exact absurd rfl fresh
  case h_3 =>
    cases h
    exact ⟨by decide, _, rfl, rfl, fun w _ => rfl⟩
  case h_4 | h_5 | h_6 | h_7 | h_8 | h_9 | h_10 | h_11 | h_12 =>
    have same := (Prod.mk.inj (Except.ok.inj h)).1
    exact (stops same rfl).elim
  case h_13 => exact (stops rfl (quote_continues h)).elim
  case h_14 =>
    refine ⟨by decide, t, goes, rfl, fun w hw => ?_⟩
    have same := atSign_parted hw s cs
    rw [Except.ok.inj h] at same
    simp only [Scanner.codeStep, same, List.nil_append]
  case h_15 =>
    split at h
    · cases h
      exact absurd rfl fresh
    next solid =>
    split at h
    · have same := (Prod.mk.inj (Except.ok.inj h)).1
      exact (stops same (number_continues s c cs)).elim
    next other =>
    split at h
    · exact (stops rfl (name_continues h)).elim
    next sign =>
    obtain ⟨u, continues, kinds, reads⟩ := operator_continued (Except.ok.inj h) goes
    refine ⟨by simpa using solid, u, continues, kinds, fun w hw => ?_⟩
    rw [Scanner.codeStep]
    · rw [startsFraction_parted hw, if_neg solid, if_neg other, if_neg sign, reads w hw]
    all_goals assumption

theorem step_continued (h : s.step c cs = .ok (t, [])) (fresh : t.emitted ≠ s.emitted)
    (goes : t.continues = true) :
    isBlank c = false ∧ ∃ u : Scanner, u.continues = true ∧
      u.frames.map Frame.kind = t.frames.map Frame.kind ∧
        ∀ w, Text.Parted w → s.step c (cs ++ w) = .ok (u, w) := by
  unfold Scanner.step at h ⊢
  split at h
  · next delimiter _ _ _ _ =>
    have stops := stringStep_continues s delimiter c cs
    rw [Except.ok.inj h, goes] at stops
    cases stops
  · exact codeStep_continued h fresh goes

end LastTokens

/-- A text that ends in a token that continues the line leaves the scanner in a state that does not
depend on what follows, if that is set off by a blank or a line break. -/
theorem run_continued {u : Text} {ts : List Token} {last : Token}
    (ok : tokenize u = .ok (ts ++ [last])) (ends : last.span.stop = u.byteSize)
    (goes : last.continuesLine = true) :
    ∃ s : Scanner, s.continues = true ∧ s.openAtEnd = none ∧
      ∀ w, Text.Parted w → Scanner.initial.run (u ++ w) = s.run w := by
  obtain ⟨n, t, turns, _, closed, listed⟩ := tokenize_turns ok
  have tokens : t.emitted = last :: ts.reverse := by
    simpa [Scanner.tokens] using congrArg List.reverse listed
  have moved : n ≠ 0 := by
    rintro rfl
    cases turns
    cases tokens
  obtain ⟨m, s, c, cs, front, final⟩ := turns.last moved
  have placed := (Placed.initial u).moves front.moves
  have fresh : t.emitted ≠ s.emitted := by
    intro same
    have before := placed.past last (by rw [← same, tokens]; exact List.mem_cons_self)
    obtain ⟨read, cut, size⟩ := placed.cut
    have filled := Text.byteSize_pos (List.cons_ne_nil c cs)
    rw [cut, Text.byteSize_append] at ends
    omega
  have continued : t.continues = true := by simpa [Scanner.continues, tokens] using goes
  obtain ⟨solid, v, again, kinds, steps⟩ := step_continued final fresh continued
  refine ⟨v, again, (openAtEnd_congr kinds).trans closed, fun w hw => ?_⟩
  rw [front.run_behind hw (.inr ⟨c, List.mem_cons_self, solid⟩) (by simp), List.cons_append,
    run_of_step (steps w hw)]

def Scanner.awaitsColon (s : Scanner) : Bool := s.atStatementLevel && 0 < s.pendingTernary

section LineBreaks

variable {s : Scanner}

/-- Behind a token that continues the line, a line break is a blank that forgets the colons the
statement waits for. -/
theorem lineBreak_of_continues (goes : s.continues = true) :
    s.lineBreak = (if s.atStatementLevel then s.setTernary 0 else s).skip [' '] := by
  have emitted := (Steers.setTernary s 0).emitted
  have ends : (s.emitted.head?.any fun t => t.kind != .newline && !t.continuesLine) = false := by
    unfold Scanner.continues at goes
    generalize s.emitted.head? = last at goes ⊢
    cases last with
    | none => rfl
    | some t => simp [show t.continuesLine = true from goes]
  unfold Scanner.lineBreak
  split
  · dsimp only
    rw [emitted, ends]
    rfl
  · rfl

theorem lineBreak_lags_skip (goes : s.continues = true) : s.lineBreak.Lags (s.skip [' ']) := by
  rw [lineBreak_of_continues goes]
  split
  · have forgets := (Scanner.Lags.refl s).setTernary (Nat.zero_le s.pendingTernary)
    rw [setTernary_self] at forgets
    exact forgets.skip [' ']
  · exact .refl _

theorem lineBreak_eq_skip (goes : s.continues = true) (waits : s.awaitsColon = false) :
    s.lineBreak = s.skip [' '] := by
  rw [lineBreak_of_continues goes]
  split
  · next level =>
    have none_pending : s.pendingTernary = 0 := by
      simpa [Scanner.awaitsColon, level] using waits
    rw [← none_pending, setTernary_self]
  · rfl

/-- A spaced colon is the last token of a text. -/
theorem run_colon (closed : s.openAtEnd = none) :
    s.run [':', ' '] = ((s.operate [':'] [' ']).skip [' '], none) := by
  have found : (Text.dottedOperator? [':', ' ']).or (Text.operator? [':', ' ']) = some [':'] := by
    decide
  have step : s.step ':' [' '] = .ok (s.operate [':'] [' '], [' ']) := by
    rw [step_of_closed closed]
    exact congrArg Except.ok (operator_eq found)
  have still : (s.operate [':'] [' ']).openAtEnd = none :=
    (openAtEnd_congr (operate_kinds s [':'] [' '])).trans closed
  rw [run_of_step step, run_blank still, Scanner.run]
  exact congrArg (Prod.mk _) still

/-- While the statement waits for a colon, one behind a line break is not the one behind a blank. -/
theorem run_colon_ne (closed : s.openAtEnd = none) (goes : s.continues = true)
    (waits : s.awaitsColon = true) :
    ∃ a b : Scanner, s.lineBreak.run [':', ' '] = (a, none) ∧
      (s.skip [' ']).run [':', ' '] = (b, none) ∧ a.tokens ≠ b.tokens := by
  obtain ⟨level, pending⟩ : s.atStatementLevel = true ∧ 0 < s.pendingTernary := by
    simpa [Scanner.awaitsColon] using waits
  have forgets : s.lineBreak.pendingTernary = 0 := by
    rw [lineBreak_of_continues goes, if_pos level]
    obtain ⟨offset, emitted, frames, root, spaced, typeNext⟩ := s
    cases frames with
    | nil => rfl
    | cons frame frames => rfl
  have broken : s.lineBreak.operate [':'] [' '] = s.lineBreak.emit .operator [':'] := by
    simp [Scanner.operate, forgets]
  have joined : (s.skip [' ']).operate [':'] [' '] =
      ((s.skip [' ']).setTernary (s.pendingTernary - 1)).emit .ternaryColon [':'] := by
    have spaced : (s.skip [' ']).spaced = true := rfl
    have still : (s.skip [' ']).pendingTernary = s.pendingTernary := rfl
    simp [Scanner.operate, spaced, still, pending]
  have opened : s.lineBreak.openAtEnd = none := (lineBreak_lags_skip goes).openAtEnd.trans closed
  refine ⟨_, _, run_colon opened, run_colon closed, fun same => ?_⟩
  rw [broken, joined] at same
  have kinds := congrArg (fun ts : List Token => ts.getLast?.map Token.kind) same
  simp [Scanner.tokens, Scanner.skip, Scanner.emit] at kinds

end LineBreaks

/-- Behind a token that continues its line, a line break and a blank lead to the same failure or to
the same tokens, but for colons that only the blank leaves to a conditional expression; and there
are none of these exactly if the statement waits for none. -/
theorem line_continuation_tokens (u : Text) (ts : List Token) (last : Token)
    (ok : tokenize u = .ok (ts ++ [last])) (ends : last.span.stop = u.byteSize)
    (goes : last.continuesLine = true) :
    (∀ v, (∃ e, tokenize (u ++ '\n' :: v) = .error e ∧ tokenize (u ++ ' ' :: v) = .error e) ∨
      ∃ broken joined, tokenize (u ++ '\n' :: v) = .ok broken ∧
        tokenize (u ++ ' ' :: v) = .ok joined ∧ List.Forall₂ Token.Loosened broken joined) ∧
    ((∀ v, tokenize (u ++ '\n' :: v) = tokenize (u ++ ' ' :: v)) ↔
      (Scanner.initial.run (u ++ [' '])).1.awaitsColon = false) := by
  obtain ⟨s, continued, closed, runs⟩ := run_continued ok ends goes
  have broken (v : Text) : Scanner.initial.run (u ++ '\n' :: v) = s.lineBreak.run v := by
    rw [runs _ (Text.parted_newline v), run_lineBreak closed]
  have joined (v : Text) : Scanner.initial.run (u ++ ' ' :: v) = (s.skip [' ']).run v := by
    rw [runs _ (Text.parted_blank v), run_blank closed]
  constructor
  · intro v
    obtain ⟨lags, failure⟩ := run_lags (lineBreak_lags_skip continued) v
    have left := tokenize_eq (u ++ '\n' :: v)
    have right := tokenize_eq (u ++ ' ' :: v)
    rw [broken v, failure] at left
    rw [joined v] at right
    cases found : ((s.skip [' ']).run v).2 with
    | none =>
      rw [found] at left right
      exact .inr ⟨_, _, left, right, List.forall₂_reverse_iff.mpr lags.emitted⟩
    | some e =>
      rw [found] at left right
      exact .inl ⟨e, left, right⟩
  · have waits : (Scanner.initial.run (u ++ [' '])).1.awaitsColon = s.awaitsColon := by
      rw [joined [], Scanner.run]
      rfl
    rw [waits]
    constructor
    · intro same
      by_contra awaits
      obtain ⟨a, b, left, right, differ⟩ := run_colon_ne closed continued (by simpa using awaits)
      have colons := same [':', ' ']
      rw [tokenize_eq, tokenize_eq, broken, joined, left, right] at colons
      exact differ (Except.ok.inj colons)
    · intro awaits v
      rw [tokenize, tokenize, broken, joined, lineBreak_eq_skip continued awaits]

/-- Inside brackets a line break keeps the question mark that waits for its colon. -/
theorem bracketed_question_joined :
    (∃ ts last, tokenize ['(', 'a', ' ', '?'] = .ok (ts ++ [last]) ∧ last.span.stop = 4 ∧
      last.continuesLine = true) ∧
    ∀ v, tokenize ('(' :: 'a' :: ' ' :: '?' :: '\n' :: v) =
      tokenize ('(' :: 'a' :: ' ' :: '?' :: ' ' :: v) := by
  have ok : tokenize ['(', 'a', ' ', '?'] = .ok ([⟨.punctuation, ['('], ⟨0, 1⟩, true⟩,
      ⟨.identifier, ['a'], ⟨1, 2⟩, false⟩] ++ [⟨.operator, ['?'], ⟨3, 4⟩, true⟩]) := by
    rw [tokenize_of_closed (by decide +kernel)]
    exact congrArg Except.ok (by decide +kernel)
  have waits : (Scanner.initial.run ['(', 'a', ' ', '?', ' ']).1.awaitsColon = false := by
    decide +kernel
  exact ⟨⟨_, _, ok, rfl, rfl⟩, (line_continuation_tokens _ _ _ ok rfl rfl).2.mpr waits⟩

/-- At statement level a line break behind a question mark takes its colon from it. -/
theorem question_loses_colon :
    (∃ ts last, tokenize ['a', ' ', '?'] = .ok (ts ++ [last]) ∧ last.span.stop = 3 ∧
      last.continuesLine = true) ∧
    (tokenize ['a', ' ', '?', '\n', 'b', ' ', ':', ' ', 'c']).toOption.map (·.map Token.kind) =
      some [.identifier, .operator, .identifier, .operator, .identifier] ∧
    (tokenize ['a', ' ', '?', ' ', 'b', ' ', ':', ' ', 'c']).toOption.map (·.map Token.kind) =
      some [.identifier, .operator, .identifier, .ternaryColon, .identifier] := by
  have ok : tokenize ['a', ' ', '?'] = .ok ([⟨.identifier, ['a'], ⟨0, 1⟩, true⟩] ++
      [⟨.operator, ['?'], ⟨2, 3⟩, true⟩]) := by
    rw [tokenize_of_closed (by decide +kernel)]
    exact congrArg Except.ok (by decide +kernel)
  refine ⟨⟨_, _, ok, rfl, rfl⟩, ?_⟩
  decide +kernel

end CellBindings
