import CellBindings.Proofs.LineLocations
import CellBindings.Proofs.LosslessTokens
import CellBindings.Proofs.Quotations
import CellBindings.Proofs.TruthfulAnalysis

/-!
What a text leaves open is contained. All tokens before it are read as if the text ended there; the
rest of the text is one leaf at the end of the root, which has no effects. So an analysis finds
nothing behind the place where the open construct starts.
-/

namespace CellBindings

/-- A boundary of a text that does not lie behind a front part of it is one of that part. -/
theorem Text.IsBoundary.left {front back : Text} {n : Nat} (h : Text.IsBoundary (front ++ back) n)
    (le : n ≤ front.byteSize) : front.IsBoundary n := by
  obtain ⟨⟨first, second⟩, cut⟩ := Option.isSome_iff_exists.mp h
  obtain ⟨same, rfl⟩ := Text.eq_of_splitAt? cut
  rcases List.append_eq_append_iff.mp same with ⟨surplus, rfl, _⟩ | ⟨more, split, _⟩
  · rw [Text.byteSize_append] at le
    obtain rfl : surplus = [] := Text.eq_nil_of_byteSize (by omega)
    exact @Text.isBoundary_of_append front (front ++ []) [] (by simp)
  · exact Text.isBoundary_of_append split

/-- What a front part of a text names, the text names. -/
theorem Text.Names.slice_append {front name : Text} {span : Span} (h : front.Names span name)
    (back : Text) : Text.slice? (front ++ back) span = some name := by
  obtain ⟨before, behind, rfl, start, stop⟩ := h.cut
  have cut := Text.slice?_append before name (behind ++ back)
  rw [stop, start] at cut
  simpa using cut

/-- The tokens of a text that leaves something open: those before it, and one for the rest. -/
theorem tokenizeRecovering_of_error {text : Text} {e : Unterminated}
    (h : tokenize text = .error e) :
    ∃ front back kept spaced, text = front ++ back ∧ front.byteSize = e.start ∧
      tokenizeRecovering text = kept ++ [⟨.error, back, ⟨e.start, text.byteSize⟩, spaced⟩] ∧
      ∀ t ∈ kept, front.IsBoundary t.span.start ∧ front.IsBoundary t.span.stop := by
  obtain ⟨after, placed, opens⟩ := run_placed (Placed.initial text)
  unfold tokenize at h
  unfold tokenizeRecovering
  generalize Scanner.initial.run text = result at placed opens h
  obtain ⟨s, failure⟩ := result
  cases failure with
  | none => cases h
  | some e =>
    cases h
    obtain ⟨front, back, rfl, size, _, between⟩ := placed.opening (opens e rfl)
    refine ⟨front, back, s.tokens.filter (·.span.start < e.start), front.getLast?.any isBlank,
      rfl, size, ?_, ?_⟩
    · have first : Text.splitAt? (front ++ back) e.start = some (front, back) := by
        rw [← size, Text.splitAt?_append]
      dsimp only
      rw [first]
      rfl
    · intro t ht
      obtain ⟨mem, before⟩ := List.mem_filter.mp ht
      have mem := List.mem_reverse.mp mem
      have stops := between t mem (of_decide_eq_true before)
      obtain ⟨stands, filled⟩ := placed.standing t mem
      have nonempty := stands.nonempty filled
      rw [← size] at stops
      exact ⟨stands.boundaries.1.left (by omega), stands.boundaries.2.left stops⟩

/-- The tree of a text that leaves something open: a leaf for it behind all other items, and these
stand in what comes before it. -/
theorem parse_of_error {text : Text} {e : Unterminated} (h : tokenize text = .error e) :
    ∃ front back items, text = front ++ back ∧ front.byteSize = e.start ∧
      parse? text = some (parse text) ∧
      parse text = ⟨.sourceFile, ⟨0, text.byteSize⟩,
        items ++ [.leaf .error ⟨e.start, text.byteSize⟩]⟩ ∧
      ∀ item ∈ items, ∀ n ∈ item.preorder, Nested front.IsBoundary n := by
  obtain ⟨front, back, kept, spaced, cut, size, tokens, edges⟩ := tokenizeRecovering_of_error h
  obtain ⟨_, ordered, _⟩ := tokenizeRecovering_wellPlaced text
  obtain ⟨children, ⟨run, last, items, failure, split, rfl, closed, listing, end_of_file⟩, found,
    root⟩ := parse_fileRun text
  rw [tokens] at split ordered
  rcases end_of_file with ⟨rfl, rfl⟩ | ⟨t, rfl, _, rfl⟩
  · -- the token for the rest would end the run, which is closed
    rw [List.append_nil] at split
    have final : (⟨.error, back, ⟨e.start, text.byteSize⟩, spaced⟩ : Token) ∈ run.getLast? := by
      rw [← split, List.getLast?_concat]
      rfl
    exact absurd rfl (closed _ final)
  · obtain ⟨rfl, same⟩ := List.append_inj' split rfl
    cases same
    refine ⟨front, back, items, cut, size, found, root, fun item hi n hn => ?_⟩
    have mem : n ∈ Node.preorderAll items := by
      rw [Node.preorderAll_eq]
      exact List.mem_flatMap.mpr ⟨item, hi, hn⟩
    exact ((listing.parts edges n mem).nested ordered.left edges).1

theorem effects_file (quoted : Bool) (span : Span) (children : List Node) :
    Node.effects quoted ⟨.sourceFile, span, children⟩ =
      children.flatMap (Node.effects quoted) := by
  cases quoted with
  | false => exact effects_sourceFile span children
  | true =>
    have below : Node.interpolations ⟨.sourceFile, span, children⟩ =
        children.flatMap Node.interpolations := Node.interpolations_below (by simp)
    rw [Node.effects_interpolations, below, List.flatMap_assoc, List.flatMap_assoc]
    exact List.flatMap_congr fun child _ => by rw [Node.effects_interpolations, List.flatMap_assoc]

/-- An unread leaf has no effects. -/
theorem effects_unread (quoted : Bool) (span : Span) :
    (Node.leaf .error span).effects quoted = [] := by
  cases quoted with
  | false => rfl
  | true => rfl

/-- Exploring a text that leaves something open records what the text before it names. -/
theorem explore_of_error {text : Text} {e : Unterminated} (h : tokenize text = .error e)
    (enclosing : ScopeStack) (quoted : Bool) :
    ∃ front analysis, Text.byteSize front = e.start ∧
      explore text enclosing quoted (parse text) = .ok analysis ∧
        Truthful front (fun _ => True) analysis := by
  obtain ⟨front, back, items, rfl, size, _, root, nested⟩ := parse_of_error h
  have effects : (parse (front ++ back)).effects quoted = items.flatMap (Node.effects quoted) := by
    rw [root, effects_file, List.flatMap_append, List.flatMap_singleton, effects_unread,
      List.append_nil]
  have stems : ∀ effect ∈ (parse (front ++ back)).effects quoted,
      effect.Stems (fun span => ∃ name, front.Names span name) fun _ => True := by
    intro effect he
    rw [effects] at he
    obtain ⟨item, hi, here⟩ := List.mem_flatMap.mp he
    refine effects_stem item (fun n hn => ?_) (fun _ _ => trivial) quoted effect here
    have inside := nested item hi n hn
    exact Text.names_of_boundaries inside.ordered inside.edges.1 inside.edges.2
  -- the text before the open construct is all that the effects look at
  have slices : ∀ span, (∃ name, front.Names span name) →
      Text.slice? (front ++ back) span = front.slice? span := by
    rintro span ⟨name, named⟩
    rw [named.slice, named.slice_append]
  have same := runAll_agrees (fun effect he => (stems effect he).agrees slices) ⟨enclosing, .empty⟩
  obtain ⟨next, run, truthful⟩ := runAll_truthful
    (fun effect he => (stems effect he).runs fun _ named => named) ⟨enclosing, .empty⟩
    (truthful_empty front fun _ => True)
  have fits : ¬ Text.byteSize (front ++ back) < (parse (front ++ back)).span.stop := by simp [root]
  exact ⟨front, next.analysis, size, by rw [explore, if_neg fits, same, run], truthful⟩

/-- Where tokens leave something open at an offset, the text still has a tree, with an error. The
last child of its root is an unread leaf from the offset to the end of the text, and no node below
the others reaches over the offset. The analysis succeeds, with any options, and none of its usages,
locals and definitions reaches over the offset either. -/
theorem open_construct_contained (text : Text) (e : Unterminated) (h : tokenize text = .error e) :
    parse? text = some (parse text) ∧ (parse text).hasErrors = true ∧
    (∃ items, (parse text).children = items ++ [.leaf .error ⟨e.start, text.byteSize⟩] ∧
      ∀ item ∈ items, ∀ n ∈ item.preorder, n.span.stop ≤ e.start) ∧
    ∀ options, ∃ analysis, analyzeCell text options = .ok analysis ∧
      (∀ o ∈ analysis.usages, o.span.stop ≤ e.start) ∧
      (∀ o ∈ analysis.locals, o.span.stop ≤ e.start) ∧
      ∀ entry ∈ analysis.definitions, entry.2.span.stop ≤ e.start := by
  obtain ⟨front, back, items, _, size, found, root, nested⟩ := parse_of_error h
  refine ⟨found, ?_, ⟨items, by rw [root], fun item hi n hn => ?_⟩, fun options => ?_⟩
  · have leaf : Node.leaf .error ⟨e.start, text.byteSize⟩ ∈ (parse text).preorder := by
      rw [root]
      exact Node.mem_preorder.mpr (.inr ⟨_, by simp, Node.mem_preorder.mpr (.inl rfl)⟩)
    exact List.any_eq_true.mpr ⟨_, leaf, rfl⟩
  · rw [← size]
    exact (nested item hi n hn).edges.2.le_byteSize
  · obtain ⟨front, analysis, size, explored, truthful⟩ :=
      explore_of_error h options.enclosing options.quoted
    have usages : ∀ o ∈ analysis.usages, o.span.stop ≤ e.start :=
      fun o ho => size ▸ (truthful.usages o ho).1.within
    have locals : ∀ o ∈ analysis.locals, o.span.stop ≤ e.start := by
      intro o ho
      rw [← size]
      rcases (truthful.locals o ho).1 with named | ⟨_, _, _, named⟩
      · exact named.within
      · exact named.within
    have definitions : ∀ entry ∈ analysis.definitions, entry.2.span.stop ≤ e.start := by
      intro entry he
      obtain ⟨⟨_, _, named⟩, _⟩ := truthful.definitions entry he
      exact size ▸ named.within
    unfold analyzeCell
    rw [explored]
    refine ⟨_, rfl, ?_⟩
    split
    · exact ⟨usages, locals, definitions⟩
    · exact ⟨usages, by simp, definitions⟩

def openString : Text := ['l', 'e', 't', '\n', 'a', '\n', '"', '$', '(', 'b']

theorem openString_contained :
    tokenize openString = .error ⟨.string, 6⟩ ∧ (parse openString).hasErrors = true ∧
    (∃ items, (parse openString).children = items ++ [.leaf .error ⟨6, 10⟩] ∧
      ∀ item ∈ items, ∀ n ∈ item.preorder, n.span.stop ≤ 6) ∧
    ∃ analysis, analyzeCell openString .standard = .ok analysis ∧
      ∀ o ∈ analysis.usages, o.span.stop ≤ 6 := by
  have left_open : (Scanner.initial.run openString).2 = some ⟨.string, 6⟩ := by decide +kernel
  have opened : tokenize openString = .error ⟨.string, 6⟩ := by
    rw [tokenize_eq, left_open]
    rfl
  obtain ⟨_, errors, tree, analyzed⟩ := open_construct_contained openString ⟨.string, 6⟩ opened
  obtain ⟨analysis, found, usages, _⟩ := analyzed .standard
  exact ⟨opened, errors, tree, analysis, found, usages⟩

end CellBindings
