import Mathlib.Algebra.Group.Nat.Defs
import CellBindings.Proofs.ScannerMoves

/-!
Question marks that wait for their colon. A step raises at most one count, by one, and takes at least
one character. So no count passes the number of characters read, and counts of 32 bits are enough for
every text of fewer than 2 ^ 32 bytes.
-/

namespace CellBindings

structure Scanner.Waits (s : Scanner) (bound : Nat) : Prop where
  root : s.rootTernary ≤ bound
  frames : ∀ frame ∈ s.frames, frame.pendingTernary ≤ bound

namespace Scanner.Waits

variable {s t : Scanner} {c : Char} {cs rest : Text} {bound : Nat}

theorem initial : Scanner.initial.Waits 0 := ⟨Nat.le_refl 0, by simp [Scanner.initial]⟩

theorem raise (h : s.Waits bound) : s.Waits (bound + 1) :=
  ⟨Nat.le_succ_of_le h.root, fun frame mem => Nat.le_succ_of_le (h.frames frame mem)⟩

theorem pending (h : s.Waits bound) : s.pendingTernary ≤ bound := by
  unfold Scanner.pendingTernary
  split
  · exact h.root
  · next frame _ frames => exact h.frames frame (by simp [frames])

theorem setTernary (h : s.Waits bound) {count : Nat} (le : count ≤ bound) :
    (s.setTernary count).Waits bound := by
  unfold Scanner.setTernary
  split
  · exact ⟨le, h.frames⟩
  · next frame outer frames =>
    refine ⟨h.root, List.forall_mem_cons.mpr ⟨le, fun other mem => ?_⟩⟩
    exact h.frames other (by simp [frames, mem])

theorem enter (h : s.Waits bound) (kind : FrameKind) : (s.enter kind).Waits bound :=
  ⟨h.root, List.forall_mem_cons.mpr ⟨Nat.zero_le bound, h.frames⟩⟩

theorem close (h : s.Waits bound) {frames : List Frame}
    (within : ∀ frame ∈ frames, frame ∈ s.frames) : Waits { s with frames } bound :=
  ⟨h.root, fun frame mem => h.frames frame (within frame mem)⟩

theorem leave (h : s.Waits bound) (kind : FrameKind) : (s.leave kind).Waits bound :=
  h.close (getD_subset fun _ closed => closeBracket_subset closed)

/-- Reading alone changes no count. -/
theorem emit (h : s.Waits bound) (kind : Token.Kind) (lexeme : Text) :
    (s.emit kind lexeme).Waits bound :=
  ⟨h.root, h.frames⟩

theorem skip (h : s.Waits bound) (gap : Text) : (s.skip gap).Waits bound := ⟨h.root, h.frames⟩

theorem flag (h : s.Waits bound) (typeNext : Bool) : Waits { s with typeNext } bound :=
  ⟨h.root, h.frames⟩

theorem lineBreak (h : s.Waits bound) : s.lineBreak.Waits bound := by
  have reset := h.setTernary (Nat.zero_le bound)
  unfold Scanner.lineBreak
  split
  · dsimp only
    split
    · exact ⟨reset.root, reset.frames⟩
    · exact reset.skip _
  · exact h.skip _

theorem comment (h : s.Waits bound) (ok : s.comment cs = .ok (t, rest)) : t.Waits bound := by
  unfold Scanner.comment at ok
  split at ok
  · split at ok
    · cases ok
    · cases ok
      exact h.skip _
  · cases ok
    exact h.skip _

theorem quote (h : s.Waits bound) (ok : s.quote cs = .ok (t, rest)) : t.Waits bound := by
  unfold Scanner.quote at ok
  split at ok
  · cases ok
    exact h.emit _ _
  · split at ok
    · cases ok
    · cases ok
      exact h.emit _ _

theorem atSign (h : s.Waits bound) (cs : Text) : (s.atSign cs).1.Waits bound := by
  unfold Scanner.atSign
  split
  · exact h.emit _ _
  · split
    · exact h.emit _ _
    · exact h.emit _ _
  · exact h.emit _ _

theorem openString (h : s.Waits bound) (marker : Text) (delimiter : Delimiter) :
    (s.openString marker delimiter).Waits bound :=
  (h.emit _ _).enter _

theorem opaqueString (h : s.Waits bound) {marker text : Text}
    (ok : s.opaqueString marker text = .ok (t, rest)) : t.Waits bound := by
  unfold Scanner.opaqueString at ok
  dsimp only at ok
  split at ok
  · cases ok
  · cases ok
    refine emit ?_ _ _
    split
    · exact h.emit _ _
    · exact (h.emit _ _).emit _ _

theorem word (h : s.Waits bound) (name rest : Text) : (s.word name rest).Waits bound := by
  have h := h.flag false
  unfold Scanner.word
  dsimp only
  split
  · exact h.emit _ _
  split
  · exact ((h.emit _ _).enter _).flag true
  split
  · exact ((h.emit _ _).enter _).flag true
  split
  · exact h.emit _ _
  split
  · exact h.emit _ _
  · split
    · exact h.emit _ _
    · exact (h.emit _ _).enter _
  · split
    · exact h.emit _ _
    · exact (h.emit _ _).close (getD_subset fun _ closed => closeBlock_subset closed)
  · split
    · exact (h.emit _ _).enter _
    · exact h.emit _ _

theorem name (h : s.Waits bound) (ok : s.name c cs = .ok (t, rest)) : t.Waits bound := by
  unfold Scanner.name at ok
  dsimp only at ok
  split at ok
  · split at ok
    · cases ok
      exact h.openString _ _
    · exact h.opaqueString ok
  · cases ok
    exact h.word _ _

/-- Only here a count rises. -/
theorem operator (h : s.Waits bound) (c : Char) (cs : Text) :
    (s.operator c cs).1.Waits (bound + 1) := by
  have pending := h.pending
  unfold Scanner.operator
  split
  · exact h.raise.emit _ _
  · dsimp only
    split
    · exact (h.raise.setTernary (Nat.succ_le_succ pending)).emit _ _
    · split
      · exact (h.raise.setTernary (by omega)).emit _ _
      · exact h.raise.emit _ _

theorem of_ok {result : Scanner × Text} (h : result.1.Waits bound)
    (ok : (Except.ok result : Except Unterminated _) = .ok (t, rest)) : t.Waits bound := by
  cases ok
  exact h

theorem codeStep (h : s.Waits bound) (ok : s.codeStep c cs = .ok (t, rest)) :
    t.Waits (bound + 1) := by
  unfold Scanner.codeStep at ok
  split at ok
  case h_1 => cases ok; exact h.raise.lineBreak
  case h_2 => exact h.raise.comment ok
  case h_3 | h_4 => cases ok; exact h.raise.emit _ _
  case h_5 | h_6 | h_7 => cases ok; exact (h.raise.emit _ _).enter _
  case h_8 | h_9 | h_10 => cases ok; exact (h.raise.emit _ _).leave _
  case h_11 | h_12 => cases ok; exact h.raise.openString _ _
  case h_13 => exact h.raise.quote ok
  case h_14 => exact (h.raise.atSign cs).of_ok ok
  case h_15 =>
    split at ok
    · cases ok
      exact h.raise.skip _
    · split at ok
      · exact (h.raise.emit _ _).of_ok ok
      · split at ok
        · exact h.raise.name ok
        · exact (h.operator c cs).of_ok ok

theorem stringStep (h : s.Waits bound) (delimiter : Delimiter) (c : Char) (cs : Text) :
    (s.stringStep delimiter c cs).1.Waits bound := by
  unfold Scanner.stringStep
  dsimp only
  split
  · exact (h.emit _ _).close fun frame mem => List.mem_of_mem_tail mem
  · split
    · split
      · exact ((h.emit _ _).emit _ _).enter _
      · split
        · exact (h.emit _ _).emit _ _
        · exact h.emit _ _
      · exact h.emit _ _
    · split
      · split
        · exact h.emit _ _
        · exact h.emit _ _
      · exact h.emit _ _

theorem step (h : s.Waits bound) (ok : s.step c cs = .ok (t, rest)) : t.Waits (bound + 1) := by
  unfold Scanner.step at ok
  split at ok
  · exact (h.raise.stringStep _ c cs).of_ok ok
  · exact h.codeStep ok

end Scanner.Waits

theorem Turns.waits {n bound : Nat} {s t : Scanner} {rest after : Text} (h : Turns n s rest t after)
    (start : s.Waits bound) : t.Waits (bound + n) := by
  induction h generalizing bound with
  | none => exact start
  | @next n s c cs t rest u after ok _ ih =>
    have later := ih (start.step ok)
    rwa [Nat.add_assoc, Nat.add_comm 1] at later

/-- At every turn, no more question marks wait than characters have been read. So below 2 ^ 32 bytes
no count leaves 32 bits, nor does one that is raised next. -/
theorem pending_le_read {n : Nat} {text rest : Text} {s : Scanner}
    (h : Turns n .initial text s rest) :
    s.Waits (text.length - rest.length) ∧
      (rest ≠ [] → text.byteSize < 2 ^ 32 → s.pendingTernary + 1 < 2 ^ 32) := by
  have counted := h.waits .initial
  have taken := h.length_le
  have size := text.length_le_byteSize
  rw [Nat.zero_add] at counted
  constructor
  · refine ⟨Nat.le_trans counted.root (by omega), fun frame mem => ?_⟩
    exact Nat.le_trans (counted.frames frame mem) (by omega)
  · intro more fits
    have := counted.pending
    have := List.length_pos_iff.mpr more
    omega

end CellBindings
