import CellBindings.Proofs.FileTrees
import CellBindings.Proofs.LosslessTokens
import CellBindings.Proofs.ScannerSeams
import CellBindings.Proofs.SteadyRules

/-!
What stands before a line break. A text that leaves no frame open and does not continue its last
line keeps its tokens when a line break and any other text follow. If nothing in it is left unread
and its tokens are sealed, it keeps its statements too: they are the first ones of the longer text.
-/

namespace CellBindings

open CellBindings.Parser Grammar

theorem Placed.extend {text rest : Text} {s : Scanner} (h : Placed text s rest) (more : Text) :
    Placed (text ++ more) s (rest ++ more) := by
  refine ⟨?_, fun t ht => ⟨?_, (h.standing t ht).2⟩, h.read, h.past, h.apart, h.strings⟩
  · obtain ⟨front, split, size⟩ := h.cut
    exact ⟨front, by simp [split], size⟩
  · obtain ⟨front, back, split, span⟩ := (h.standing t ht).1
    exact ⟨front, back ++ more, by simp [split], span⟩

structure Scanner.Past (s : Scanner) (offset : Nat) : Prop where
  here : offset ≤ s.offset
  strings : ∀ frame ∈ s.frames, ∀ delimiter start, frame.kind = .string delimiter start →
    offset ≤ start
  last : ∀ t ∈ s.emitted.head?, t.kind = .stringStart → offset ≤ t.span.start

section Tokens

variable {s t : Scanner} {rest after : Text} {offset : Nat}

theorem Scanner.Past.moves (h : s.Past offset) (m : Moves s rest t after) : t.Past offset := by
  induction m with
  | done => exact h
  | @emit s lexeme rest t after kind _ _ _ ih =>
    refine ih ⟨Nat.le_trans h.here (Nat.le_add_right _ _), h.strings, ?_⟩
    rintro t ⟨⟩ _
    exact h.here
  | breakLine _ ih =>
    refine ih ⟨Nat.le_trans h.here (Nat.le_add_right _ _), h.strings, ?_⟩
    rintro t ⟨⟩ _
    exact h.here
  | skip _ _ ih => exact ih ⟨Nat.le_trans h.here (Nat.le_add_right _ _), h.strings, h.last⟩
  | steer steers _ ih =>
    refine ih ⟨by rw [steers.offset]; exact h.here, fun frame mem delimiter start kind => ?_, ?_⟩
    · rcases steers.strings frame mem delimiter start kind with
        ⟨old, mem, same⟩ | ⟨t, ht, opens, rfl⟩
      · exact h.strings old mem delimiter start (same.trans kind)
      · exact h.last t ht opens
    · rw [steers.emitted]
      exact h.last

/-- What such a scanner leaves open starts behind the offset. -/
theorem Scanner.Past.halts (h : s.Past offset) {failure : Option Unterminated}
    (halts : Halts s rest failure) : ∀ e ∈ failure, offset ≤ e.start := by
  intro e he
  rcases halts with ⟨rfl, left⟩ | ⟨c, cs, other, rfl, failed, left⟩
  · obtain ⟨frame, mem, delimiter, kind⟩ := openAtEnd_frame (left.symm.trans he)
    exact h.strings frame mem delimiter e.start kind
  · obtain rfl : other = e := Option.some.inj (left.symm.trans he)
    rw [step_error failed]
    exact h.here

theorem Moves.emitted_suffix (m : Moves s rest t after) : s.emitted <:+ t.emitted := by
  induction m with
  | done => exact List.suffix_rfl
  | emit _ _ _ _ ih => exact (List.suffix_cons _ _).trans ih
  | breakLine _ ih => exact (List.suffix_cons _ _).trans ih
  | skip _ _ ih => exact ih
  | steer steers _ ih => exact steers.emitted ▸ ih

/-- A scanner that all open strings are behind keeps its tokens, whatever it leaves open later. -/
theorem tokens_kept {text : Text} (placed : Placed text s rest) (past : s.Past s.offset)
    (run : Scanner.initial.run text = s.run rest) :
    ∃ more, tokenizeRecovering text = s.tokens ++ more := by
  obtain ⟨n, after, turns, halts⟩ := run_turns s rest
  obtain ⟨new, emitted⟩ := turns.moves.emitted_suffix
  have failed := (past.moves turns.moves).halts halts
  unfold tokenizeRecovering
  rw [run]
  generalize s.run rest = result at emitted failed
  obtain ⟨last, failure⟩ := result
  have tokens : last.tokens = s.tokens ++ new.reverse := by
    rw [Scanner.tokens, show last.emitted = new ++ s.emitted from emitted.symm,
      List.reverse_append, Scanner.tokens]
  cases failure with
  | none => exact ⟨_, tokens⟩
  | some e =>
    have before : ∀ t ∈ s.tokens, (t.span.start < e.start : Bool) = true := by
      intro t ht
      have mem := List.mem_reverse.mp ht
      have filled := (placed.standing t mem).1.nonempty (placed.standing t mem).2
      have stop := placed.past t mem
      have start := failed e rfl
      exact decide_eq_true (by omega)
    simp only [tokens, List.filter_append, List.filter_eq_self.mpr before, List.append_assoc]
    exact ⟨_, rfl⟩

/-- At the top level a line break is a token, or the last token is one already. -/
theorem lineBreak_top {last : Token} {earlier : List Token} (closed : s.frames = [])
    (emitted : s.emitted = last :: earlier) (ends : last.continuesLine = false) :
    s.lineBreak.frames = [] ∧ ∃ t before, t.kind = .newline ∧ s.lineBreak.emitted = t :: before ∧
      (before = s.emitted ∨ t = last ∧ before = earlier) := by
  rw [lineBreak_of_top closed]
  by_cases newline : last.kind = .newline
  · rw [if_neg (by simp [emitted, newline])]
    exact ⟨closed, last, earlier, newline, emitted, .inr ⟨rfl, rfl⟩⟩
  · rw [if_pos (by simp [emitted, newline, ends])]
    exact ⟨closed, _, s.emitted, rfl, rfl, .inl rfl⟩

end Tokens

/-- Before a line break the tokens of a text stay, and one that is a line break stands behind them
or is their last. -/
theorem tokens_before_break {a : Text} {ts : List Token} (ok : tokenize a = .ok ts)
    (closed : (Scanner.initial.run a).1.frames = [])
    (ends : ∀ t ∈ ts.getLast?, t.continuesLine = false) (filled : ts ≠ []) (b : Text) :
    ∃ front ending t more, ts = front ++ ending ∧ (∀ u ∈ ending, u.kind = .newline) ∧
      t.kind = .newline ∧ tokenizeRecovering (a ++ '\n' :: b) = front ++ t :: more := by
  obtain ⟨n, s, turns, run, -, rfl⟩ := tokenize_turns ok
  replace closed : s.frames = [] := by rwa [run] at closed
  cases emitted : s.emitted with
  | nil => simp [Scanner.tokens, emitted] at filled
  | cons last earlier =>
    have ends_last : last.continuesLine = false := ends last (by simp [Scanner.tokens, emitted])
    have behind := turns.run_break closed (by simpa [emitted] using ends_last) b
    have placed : Placed (a ++ '\n' :: b) s.lineBreak b :=
      (((Placed.initial a).moves turns.moves).extend ('\n' :: b)).moves (lineBreak_moves s b)
    obtain ⟨frames, t, before, newline, broken, cases⟩ := lineBreak_top closed emitted ends_last
    have past : s.lineBreak.Past s.lineBreak.offset := by
      refine ⟨Nat.le_refl _, by simp [frames], fun u hu opens => ?_⟩
      obtain rfl : t = u := by simpa [broken] using hu
      rw [newline] at opens
      cases opens
    obtain ⟨more, tokens⟩ := tokens_kept placed past behind
    have shown : tokenizeRecovering (a ++ '\n' :: b) = before.reverse ++ t :: more := by
      simpa [Scanner.tokens, broken] using tokens
    rcases cases with rfl | ⟨rfl, rfl⟩
    · exact ⟨s.emitted.reverse, [], t, more, by simp [Scanner.tokens], by simp, newline, shown⟩
    · refine ⟨before.reverse, [t], t, more, by simp [Scanner.tokens, emitted], ?_, newline, shown⟩
      simpa using newline

/-- The items of a file stand behind its first separators, and what follows them is an error. -/
theorem file_items {chart rest : Chart} {root : Node} (found : file chart = some (root, rest)) :
    ∃ items mid failure,
      separated fileItem (many1 separator) (Chart.unseparated chart) = some (items, mid) ∧
      root = .wrap .sourceFile (items ++ failure) ∧ ∀ node ∈ failure, node.hasErrors = true := by
  obtain ⟨before, start, first, found⟩ := bind_eq_some.mp found
  obtain ⟨items, mid, read, found⟩ := bind_eq_some.mp found
  obtain ⟨_, _, _, found⟩ := bind_eq_some.mp found
  obtain ⟨failure, _, last, found⟩ := bind_eq_some.mp found
  obtain ⟨_, _, _, found⟩ := bind_eq_some.mp found
  obtain ⟨rfl, _⟩ := pure_eq_some.mp found
  obtain ⟨_, separators⟩ := many_separator chart
  rw [separators] at first
  obtain ⟨_, rfl⟩ := Prod.mk.inj (Option.some.inj first)
  refine ⟨items, mid, failure.toList, read, rfl, fun node mem => ?_⟩
  rcases orElse_eq_some.mp last with last | ⟨_, last⟩
  · obtain ⟨_, _, leaf_read, last⟩ := bind_eq_some.mp last
    obtain ⟨t, _, _, leaf_read⟩ := bind_eq_some.mp leaf_read
    obtain ⟨rfl, _⟩ := pure_eq_some.mp leaf_read
    obtain ⟨rfl, _⟩ := pure_eq_some.mp last
    obtain rfl : node = leaf .error t := by simpa using mem
    rw [Node.hasErrors_eq]
    rfl
  · obtain ⟨rfl, _⟩ := pure_eq_some.mp last
    cases mem

theorem parse_items (text : Text) :
    ∃ items mid failure, separated fileItem (many1 separator)
        (Chart.unseparated (Chart.ofTokens (tokenizeRecovering text))) = some (items, mid) ∧
      (parse text).children = items ++ failure ∧ ∀ node ∈ failure, node.hasErrors = true := by
  obtain ⟨_, _, found, _⟩ := parse_listing text
  obtain ⟨⟨root, rest⟩, read, same⟩ := Option.map_eq_some_iff.mp found
  obtain ⟨items, mid, failure, items_read, rfl, failed⟩ := file_items read
  exact ⟨items, mid, failure, items_read, by rw [← same]; rfl, failed⟩

namespace Seam

variable {s : Seam} {n : Nat}

theorem carries_fileItem : s.Carries (fun _ => True) n 1 Clean (fun _ => True) fileItem := by
  have separates : ∀ t : Token, t.kind = .newline → (isSeparator t || isError t) = true := by
    simp +contextual [isSeparator]
  refine carries_item (s.known n) fun us rest next => ?_
  rcases orElse_eq_some.mp next with next | ⟨_, next⟩
  · obtain ⟨rfl, _⟩ := ahead_eq_some next
    exact ⟨rfl, orElse_eq_some.mpr (.inl (ahead_joined separates next))⟩
  · -- the end of the tokens is the line break of the other reading
    have nothing : s.alone us = [] ∧ rest = [] := by
      cases here : s.alone us with
      | nil => simpa [here, endOfTokens, eq_comm] using next
      | cons row rows => simp [here, endOfTokens] at next
    obtain rfl : us = [] := by
      have length := congrArg List.length nothing.1
      simp only [alone, length_ofTokens, List.length_append, List.length_nil] at length
      exact List.length_eq_zero_iff.mp (by omega)
    obtain ⟨row, rows, newline, there⟩ := s.joined_nil
    refine ⟨nothing.2.trans nothing.1.symm, orElse_eq_some.mpr (.inl ?_)⟩
    simp [there, ahead, token, separates _ newline]

/-- Items that are carried over one by one are the first ones of the other reading. -/
theorem many_carried {α : Type} {p : Parser α} {good : α → Prop}
    (carried : s.Carries (fun _ => True) n 1 good (fun _ => True) p) {us : List Token}
    (suffix : us <:+ s.front) (length : us.length < n) (bound bound' : Chart)
    (room : us.length < bound'.length)
    (all : ∀ a ∈ (manyWithin p bound (s.alone us)).1, good a) :
    (manyWithin p bound (s.alone us)).1 <+: (manyWithin p bound' (s.joined us)).1 := by
  induction bound generalizing us bound' with
  | nil => exact List.nil_prefix
  | cons _ bound ih =>
    cases first : p (s.alone us) with
    | none =>
      rw [manyWithin_of_none first]
      exact List.nil_prefix
    | some result =>
      obtain ⟨a, mid⟩ := result
      simp only [manyWithin, first] at all ⊢
      obtain ⟨vs, below, shorter, rfl, there⟩ := carried us suffix length trivial a mid first
        (all a List.mem_cons_self) trivial
      cases bound' with
      | nil => simp at room
      | cons _ bound' =>
        simp only [List.length_cons] at room
        simp only [manyWithin, there]
        refine List.cons_prefix_cons.mpr ⟨rfl, ?_⟩
        exact ih (below.trans suffix) (by omega) bound' (by omega) fun b hb =>
          all b (List.mem_cons_of_mem a hb)

/-- The items of the reading that ends at the seam are the first ones of the other reading. -/
theorem fileItems_kept {items items' : List Node} {rest rest' : Chart}
    (here : separated fileItem (many1 separator) (Chart.unseparated (s.alone s.front)) =
      some (items, rest)) (clean : ∀ node ∈ items, Clean node)
    (there : separated fileItem (many1 separator) (Chart.unseparated (s.joined s.front)) =
      some (items', rest')) : items <+: items' := by
  rcases s.unseparated_cases s.front with nothing | ⟨t, us, drop, _, same, same'⟩
  · rw [nothing] at here
    obtain ⟨rfl, _⟩ := Prod.mk.inj (Option.some.inj here)
    exact List.nil_prefix
  rw [same] at here
  rw [same'] at there
  have suffix : t :: us <:+ s.front := drop ▸ List.dropWhile_suffix _
  rcases orElse_eq_some.mp here with here | ⟨_, here⟩
  · obtain ⟨first, mid, found, here⟩ := bind_eq_some.mp here
    obtain ⟨others, _, repeated, here⟩ := bind_eq_some.mp here
    obtain ⟨rfl, rfl⟩ := pure_eq_some.mp here
    obtain ⟨vs, below, shorter, rfl, found'⟩ := carries_fileItem (n := us.length + 2) _ suffix
      (by simp) trivial first mid found (clean first List.mem_cons_self) trivial
    have again : s.Carries (fun _ => True) (us.length + 2) 1 Clean (fun _ => True)
        (nextItem fileItem) := carries_nextItem rfl carries_fileItem
    obtain ⟨others', rest'', repeated'⟩ : ∃ items rest,
        many (nextItem fileItem) (s.joined vs) = some (items, rest) := ⟨_, _, rfl⟩
    have whole : separated fileItem (many1 separator) (s.joined (t :: us)) =
        some (first :: others', rest'') :=
      orElse_eq_some.mpr (.inl (bind_eq_some.mpr ⟨first, _, found',
        bind_eq_some.mpr ⟨others', _, repeated', rfl⟩⟩))
    obtain ⟨rfl, _⟩ := Prod.mk.inj (Option.some.inj (whole.symm.trans there))
    refine List.cons_prefix_cons.mpr ⟨rfl, ?_⟩
    have left : (manyWithin (nextItem fileItem) (s.alone vs) (s.alone vs)).1 = others :=
      congrArg Prod.fst (Option.some.inj repeated)
    have right : (manyWithin (nextItem fileItem) (s.joined vs) (s.joined vs)).1 = others' :=
      congrArg Prod.fst (Option.some.inj repeated')
    have room : vs.length < (s.joined vs).length := by
      obtain ⟨u, more, split, _⟩ := s.more_break
      simp [joined, length_ofTokens, split]
    have kept := many_carried again (below.trans suffix)
      (by simp only [List.length_cons] at shorter; omega) (s.alone vs) (s.joined vs) room
    rw [left, right] at kept
    exact kept fun node mem => clean node (List.mem_cons_of_mem first mem)
  · obtain ⟨rfl, _⟩ := pure_eq_some.mp here
    exact List.nil_prefix

end Seam

/-- A text that leaves nothing open or unread, with its tokens sealed, keeps its statements when a
line break and any other text follow. -/
theorem statements_kept (a b : Text) (ts : List Token) (ok : tokenize a = .ok ts)
    (closed : (Scanner.initial.run a).1.frames = [])
    (ends : ∀ t ∈ ts.getLast?, t.continuesLine = false) (clean : (parse a).hasErrors = false)
    (all_closed : Sealed ts) : (parse a).children <+: (parse (a ++ '\n' :: b)).children := by
  have listed := tokenizeRecovering_of_ok ok
  obtain ⟨items, mid, failure, here, children, failed⟩ := parse_items a
  obtain ⟨items', mid', failure', there, children', _⟩ := parse_items (a ++ '\n' :: b)
  rw [listed] at here
  have none_failed : failure = [] := by
    cases failure with
    | nil => rfl
    | cons node _ =>
      have no_error := @Node.hasErrors_child _ node clean (by simp [children])
      rw [failed node List.mem_cons_self] at no_error
      cases no_error
  by_cases filled : ts = []
  · subst filled
    obtain ⟨rfl, _⟩ := Prod.mk.inj (Option.some.inj here)
    simp [children, none_failed]
  obtain ⟨front, ending, t, more, rfl, breaks, newline, joined⟩ :=
    tokens_before_break ok closed ends filled b
  have ordered := (tokenizeRecovering_wellPlaced a).ordered
  have ordered' := (tokenizeRecovering_wellPlaced (a ++ '\n' :: b)).ordered
  rw [listed] at ordered
  rw [joined] at ordered' there
  let seam : Seam := ⟨front, ending, t :: more, breaks, ⟨t, more, rfl, newline⟩, ordered, ordered',
    all_closed⟩
  have clean_items : ∀ node ∈ items, Seam.Clean node := fun node mem =>
    Node.hasErrors_child clean (by simp [children, mem])
  have kept : items <+: items' := seam.fileItems_kept here clean_items there
  rw [children, none_failed, children', List.append_nil]
  exact kept.trans (List.prefix_append items' failure')

/-- A call with a quoted block word, a call with a generator, and a loop with a macro in it. -/
def generatorAndLoop : Text :=
  ['g', '(', ':', 'i', 'f', ',', ' ', 'c', ')', '\n', 'f', '(', 'x', ' ', 'f', 'o', 'r', ' ', 'x',
    ' ', 'i', 'n', ' ', 'y', ')', '\n', 'f', 'o', 'r', ' ', 'i', ' ', 'i', 'n', ' ', 'z', '\n', '@',
    'm', ' ', 'i', '\n', 'e', 'n', 'd']

theorem generatorAndLoop_kept :
    (∃ ts, tokenize generatorAndLoop = .ok ts ∧ Sealed ts ∧
      ∀ t ∈ ts.getLast?, t.continuesLine = false) ∧
    (Scanner.initial.run generatorAndLoop).1.frames = [] ∧
    (parse generatorAndLoop).hasErrors = false ∧
    (parse generatorAndLoop).children.map Node.kind =
      [.callExpression, .callExpression, .forStatement] ∧
    ∀ b, (parse generatorAndLoop).children <+:
      (parse (generatorAndLoop ++ '\n' :: b)).children := by
  have ok : tokenize generatorAndLoop = .ok (Scanner.initial.run generatorAndLoop).1.tokens :=
    tokenize_of_closed (by decide +kernel)
  have frames : (Scanner.initial.run generatorAndLoop).1.frames = [] := by decide +kernel
  have ends : ∀ t ∈ (Scanner.initial.run generatorAndLoop).1.tokens.getLast?,
      t.continuesLine = false := by decide +kernel
  have clean : (parse generatorAndLoop).hasErrors = false := by decide +kernel
  have ordered := (tokenizeRecovering_wellPlaced generatorAndLoop).ordered
  rw [tokenizeRecovering_of_ok ok] at ordered
  have all_closed : Sealed (Scanner.initial.run generatorAndLoop).1.tokens :=
    .of_positions ordered (by decide +kernel) (by decide +kernel)
  exact ⟨⟨_, ok, all_closed, ends⟩, frames, clean, by decide +kernel,
    fun b => statements_kept _ b _ ok frames ends clean all_closed⟩

def macroGenerator : Text :=
  ['(', '@', 'm', ' ', 'x', ' ', 'f', 'o', 'r', ' ', 'y', ' ', 'i', 'n', ' ', 'z', ')']

theorem macroGenerator_swallowed :
    (∃ ts, tokenize macroGenerator = .ok ts ∧ ∀ t ∈ ts.getLast?, t.continuesLine = false) ∧
    (Scanner.initial.run macroGenerator).1.frames = [] ∧
    (Scanner.initial.run macroGenerator).1.typeNext = false ∧
    (parse macroGenerator).hasErrors = false ∧
    (parse macroGenerator).children.map Node.kind = [.generator] ∧
    (parse (macroGenerator ++ '\n' :: ['e', 'n', 'd', ')'])).children.map Node.kind =
      [.parenthesizedExpression] := by
  refine ⟨⟨_, tokenize_of_closed ?_, ?_⟩, ?_⟩
  all_goals decide +kernel

end CellBindings
