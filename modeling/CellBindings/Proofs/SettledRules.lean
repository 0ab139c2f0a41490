import CellBindings.Proofs.ContainedFailures
import CellBindings.Proofs.ScannerSeams
import CellBindings.Proofs.SettledAtoms

/-!
Expressions, statements and files, and what is open at the end of a text. All rules of the chart
take runs that settle if they are heard. So where a tree has no errors and its words do what it
says, all that the text opened is closed.
-/

namespace CellBindings

open CellBindings.Parser Grammar

theorem keeps_fieldName : KeepsNode fieldName :=
  Reads.orElse keeps_name (Reads.orElse keeps_interpolation keeps_symbol)

def Grammar.Suffix.parts : Suffix → List Node
  | .call arguments block => arguments :: block.toList
  | .broadcast arguments => [arguments]
  | .index arguments _ => arguments
  | .field name => [name]
  | .curly arguments _ => arguments
  | .adjoint _ => []
  | .splat _ => []

theorem apply_children (base : Node) (suffix : Suffix) :
    (suffix.apply base).children = base :: suffix.parts := by
  cases suffix <;> rfl

theorem keeps_suffix : Keeps suffix Suffix.parts := by
  refine Reads.orElse ?_ (Reads.orElse ?_ (Reads.orElse ?_ (Reads.orElse ?_ (Reads.orElse ?_
    (Reads.orElse ?_ ?_)))))
  · refine (keeps_argumentList (takes_tight '(')).bind fun us arguments ha => ?_
    refine (keeps_optionNode keeps_doClause).bind fun vs block hb => Reads.pure ?_
    simpa [Suffix.parts] using ha.append (hb.append .nil)
  · refine (keeps_operator _).bind fun us _ hd => ?_
    refine (keeps_argumentList (takes_tight '(')).bind fun vs arguments ha => Reads.pure ?_
    exact hd.append (ha.append .nil)
  · refine (keeps_operator _).bind fun us _ hd => ?_
    refine keeps_fieldName.bind fun vs field hf => Reads.pure ?_
    exact hd.append (hf.append .nil)
  · refine (takes_tight '[').bind fun _ first ⟨hf, mf⟩ => ?_
    refine leaks_indexArguments.bind fun us arguments ha => ?_
    refine (takes_bracket ']').bind fun _ last ⟨hl, ml⟩ => Reads.pure ?_
    subst hf hl
    have inner := ha.before (returns_closing .square ml)
    simpa [Suffix.parts] using settles_opening .square mf inner
  · refine (takes_tight '{').bind fun _ first ⟨hf, mf⟩ => ?_
    refine (keeps_commaList (keeps_rule Row.arrow)).bind fun us arguments ha => ?_
    refine (takes_bracket '}').bind fun _ last ⟨hl, ml⟩ => Reads.pure ?_
    subst hf hl
    have inner := ha.before (returns_closing .curly ml)
    simpa [Suffix.parts] using settles_opening .curly mf inner
  · exact Reads.map (keeps_operator _) fun _ _ h => h
  · exact Reads.map (keeps_operator _) fun _ _ h => h

theorem keeps_primary : KeepsNode primary := by
  refine keeps_atom.bind fun us base hb => ?_
  refine (Reads.many keeps_suffix).bind fun vs suffixes hs => Reads.pure ?_
  rw [List.append_nil]
  exact settles_foldl (by simp [apply_children]) hb hs

theorem keeps_typed : KeepsNode typed := by
  refine (keeps_rule Row.primary).bind fun us value hv => ?_
  refine (Reads.many (keeps_behind (keeps_operator _) (keeps_rule Row.primary))).bind
    fun vs types ht => Reads.pure ?_
  rw [List.append_nil]
  exact @settles_foldl _ us vs value types _ (fun node => [node]) (by simp) hv ht

/-- An operator that is kept, and the operand behind it. -/
theorem keeps_operand {sign : Parser Token} {p : Parser Node} (hs : Keeps sign fun _ => [])
    (hp : KeepsNode p) :
    Keeps (do let op ← sign; let node ← p; return (op, node)) fun pair => [pair.2] := by
  refine hs.bind fun us op hu => ?_
  refine hp.bind fun vs node hn => Reads.pure ?_
  exact hu.append (hn.append .nil)

theorem settles_foldBinary {us vs : List Token} {first : Node} {rest : List (Token × Node)}
    (hf : Settles us [first]) (hr : Pieces (fun ws pair => Settles ws [pair.2]) vs rest) :
    Settles (us ++ vs) [foldBinary first rest] :=
  settles_foldl (by simp [binary]) hf hr

theorem keeps_power : KeepsNode power := by
  refine (keeps_rule Row.typed).bind fun us base hb => ?_
  refine (Reads.option (keeps_operand (Reads.orElse (keeps_operator ['^'])
    (keeps_operator ['.', '^'])) (keeps_rule Row.unary))).bind fun vs raised hr => Reads.pure ?_
  rw [List.append_nil]
  exact settles_foldBinary hb hr

theorem still_of_among {spellings : List Text} {t : Token} (h : isAmong spellings t = true) :
    t.isStill = true := by
  simp only [isAmong, Bool.and_eq_true, beq_iff_eq] at h
  exact still_of_kind h.1 rfl

theorem still_of_assignment {t : Token} (h : isAssignment t = true) : t.isStill = true := by
  simp only [isAssignment, Bool.and_eq_true, beq_iff_eq] at h
  exact still_of_kind h.1 rfl

theorem still_of_level {level : Level} {t : Token} (h : level.accepts t = true) :
    t.isStill = true := by
  cases level with
  | disjunction | conjunction => exact still_of_operator h
  | comparison =>
    simp only [Level.accepts, isComparison, Bool.or_eq_true] at h
    rcases h with (h | h) | h
    · exact still_of_among h
    · exact still_of_keyword rfl h
    · exact still_of_keyword rfl h
  | pipe | range =>
    simp only [Level.accepts, Bool.or_eq_true] at h
    rcases h with h | h
    · exact still_of_operator h
    · exact still_of_operator h
  | plus | times | shift => exact still_of_among h

theorem keeps_unary : KeepsNode unary := by
  refine Reads.orElse ?_ (Reads.orElse ?_ keeps_power)
  · refine (keeps_still (fun _ => still_of_among) fun op => [leaf .operator op]).bind
      fun us op ho => ?_
    refine (keeps_rule Row.unary).bind fun vs operand hv => Reads.pure ?_
    exact (ho.append (hv.append .nil)).under (by simp)
  · refine (keeps_operator _).bind fun us colons hc => ?_
    refine (keeps_rule Row.unary).bind fun vs type ht => Reads.pure ?_
    exact (hc.append (ht.append .nil)).under (by simp)

theorem settles_combine (level : Level) {us vs : List Token} {first : Node}
    {rest : List (Token × Node)} (hf : Settles us [first])
    (hr : Pieces (fun ws pair => Settles ws [pair.2]) vs rest) :
    Settles (us ++ vs) [level.combine first rest] := by
  rw [Level.combine]
  split
  · exact (hf.append (settles_pieces hr)).under (by simp)
  · exact settles_foldBinary hf hr

theorem keeps_chain (levels : List Level) : KeepsNode (chain levels) := by
  induction levels with
  | nil => exact keeps_rule Row.unary
  | cons level tighter ih =>
    refine ih.bind fun us first hf => ?_
    refine (Reads.many (keeps_operand (keeps_still (fun _ => still_of_level) _) ih)).bind
      fun vs rest hr => Reads.pure ?_
    rw [List.append_nil]
    exact settles_combine level hf hr

theorem keeps_ternary : KeepsNode ternary := by
  refine (keeps_chain Level.all).bind fun us condition hc => ?_
  refine (@keeps_option _ _ (fun branches => branches) ?_).bind fun vs branches hb => Reads.pure ?_
  · refine (keeps_operator _).bind fun us _ hm => ?_
    refine (keeps_rule Row.ternary).bind fun vs yes hy => ?_
    refine (keeps_quiet rfl fun _ => []).bind fun ws _ hk => ?_
    refine (keeps_rule Row.ternary).bind fun xs no hn => Reads.pure ?_
    exact hm.append (hy.append (hk.append (hn.append .nil)))
  · have whole := hc.append (hb.append .nil)
    cases branches with
    | none => simpa [SettlesNode] using whole
    | some nodes => exact whole.under (by simp)

theorem keeps_pair : KeepsNode pair := by
  refine (keeps_rule Row.ternary).bind fun us left hl => ?_
  refine (Reads.option (keeps_operand (keeps_operator _) (keeps_rule Row.pair))).bind
    fun vs right hr => Reads.pure ?_
  rw [List.append_nil]
  exact settles_foldBinary hl hr

theorem keeps_whereExpression : KeepsNode whereExpression := by
  refine (keeps_rule Row.pair).bind fun us inner hi => ?_
  refine (keeps_manyNodes (keeps_behind (keeps_keyword rfl) (keeps_rule Row.pair))).bind
    fun vs clauses hc => Reads.pure ?_
  have whole := hi.append (hc.append .nil)
  cases clauses with
  | nil => exact whole
  | cons clause clauses => exact whole.under (by simp)

theorem keeps_arrow : KeepsNode arrow := by
  refine (keeps_rule Row.whereExpression).bind fun us parameters hp => ?_
  refine (keeps_optionNode (keeps_behind (keeps_operator _) (keeps_rule Row.expression))).bind
    fun vs body hb => Reads.pure ?_
  have whole := hp.append (hb.append .nil)
  cases body with
  | none => exact whole
  | some body => exact whole.under (by simp)

theorem keeps_assigned {right : Parser Node} (h : KeepsNode right) :
    Keeps (assigned right) fun pair => [pair.2] :=
  keeps_operand (keeps_still (fun _ => still_of_assignment) _) h

theorem settles_maybeAssigned {us vs : List Token} {left : Node} {right : Option (Token × Node)}
    (hl : Settles us [left]) (hr : Settles vs (right.toList.flatMap fun pair => [pair.2])) :
    Settles (us ++ vs) [maybeAssigned left right] := by
  have whole := hl.append hr
  cases right with
  | none => exact whole
  | some pair => exact whole.under (by simp [maybeAssigned, assignment])

theorem keeps_expression : KeepsNode expression := by
  refine (keeps_rule Row.arrow).bind fun us left hl => ?_
  refine (keeps_option (keeps_assigned (keeps_rule Row.expression))).bind fun vs right hr =>
    Reads.pure ?_
  rw [List.append_nil]
  exact settles_maybeAssigned hl hr

theorem keeps_openTuple : KeepsNode openTuple := by
  refine (keeps_rule Row.arrow).bind fun us first hf => ?_
  refine (keeps_manyNodes (keeps_behind keeps_comma (keeps_rule Row.arrow))).bind
    fun vs rest hr => ?_
  refine (keeps_optionMark keeps_comma).bind fun ws trailing ht => Reads.pure ?_
  have whole := hf.append (hr.append (ht.append .nil))
  cases trailing with
  | some t => exact whole.under (by simp)
  | none =>
    cases rest with
    | nil => exact whole
    | cons second rest => exact whole.under (by simp)

theorem keeps_assignmentExpression : KeepsNode assignmentExpression := by
  refine keeps_openTuple.bind fun us left hl => ?_
  refine (keeps_option (keeps_assigned (keeps_rule Row.assignment))).bind fun vs right hr =>
    Reads.pure ?_
  rw [List.append_nil]
  exact settles_maybeAssigned hl hr

theorem keeps_typeHead : KeepsNode typeHead := by
  refine (keeps_chain Level.fromComparison).bind fun us node hn => Reads.pure ?_
  exact (hn.append .nil).under (by simp)

theorem keeps_structDefinition : KeepsNode structDefinition := by
  refine (keeps_optionMark (keeps_keyword rfl)).bind fun us mutability hm => ?_
  refine (takes_keyword .structKw).bind fun _ word ⟨hw, mw⟩ => ?_
  refine keeps_typeHead.bind fun vs head hh => ?_
  refine keeps_block.bind fun ws body hb => ?_
  refine (takes_keyword .endKw).bind fun _ last ⟨hl, ml⟩ => Reads.pure ?_
  subst hw hl
  have inner := hh.before ((hb.body head.span.stop).before (returns_end ml))
  exact (hm.append (settles_word mw rfl inner)).under (by simp)

theorem keeps_abstractDefinition : KeepsNode abstractDefinition := by
  refine (takes_keyword .abstractKw).bind fun _ first ⟨hf, mf⟩ => ?_
  refine (keeps_keyword rfl).bind fun us _ hw => ?_
  refine keeps_typeHead.bind fun vs head hh => ?_
  refine (takes_keyword .endKw).bind fun _ last ⟨hl, ml⟩ => Reads.pure ?_
  subst hf hl
  have inner := hw.before (hh.before (returns_end ml))
  exact (settles_word mf rfl inner).under (by simp)

theorem keeps_primitiveDefinition : KeepsNode primitiveDefinition := by
  refine (takes_keyword .primitiveKw).bind fun _ first ⟨hf, mf⟩ => ?_
  refine (keeps_keyword rfl).bind fun us _ hw => ?_
  refine keeps_typeHead.bind fun vs head hh => ?_
  refine (keeps_rule Row.arrow).bind fun ws bits hb => ?_
  refine (takes_keyword .endKw).bind fun _ last ⟨hl, ml⟩ => Reads.pure ?_
  subst hf hl
  have inner := hw.before (hh.before (hb.before (returns_end ml)))
  exact (settles_word mf rfl inner).under (by simp)

theorem keeps_moduleDefinition : KeepsNode moduleDefinition :=
  Reads.orElse (keeps_definition rfl keeps_name) (keeps_definition rfl keeps_name)

theorem keeps_importName : KeepsNode importName :=
  Reads.orElse keeps_name (Reads.orElse keeps_macroName (keeps_literal rfl))

theorem keeps_importPath : KeepsNode importPath := by
  refine (keeps_manyMarks (Reads.orElse (keeps_operator ['.']) (Reads.orElse
    (keeps_operator ['.', '.']) (keeps_operator ['.', '.', '.'])))).bind fun us dots hd => ?_
  refine keeps_importName.bind fun vs first hf => ?_
  refine (keeps_manyNodes (keeps_behind (keeps_operator _) keeps_importName)).bind
    fun ws rest hr => Reads.pure ?_
  exact (hd.append (hf.append (hr.append .nil))).under (by simp)

theorem still_of_asWord {t : Token} (h : isAsWord t = true) : t.isStill = true := by
  simp only [isAsWord, Bool.and_eq_true, beq_iff_eq] at h
  exact still_of_kind h.1 rfl

theorem keeps_importItem : KeepsNode importItem := by
  refine keeps_importPath.bind fun us path hp => ?_
  refine (keeps_optionNode (keeps_behind (keeps_still (fun _ => still_of_asWord) _)
    keeps_importName)).bind fun vs newName hn => Reads.pure ?_
  have whole := hp.append (hn.append .nil)
  cases newName with
  | none => exact whole
  | some name => exact whole.under (by simp)

theorem keeps_importItems : Keeps importItems fun items => items := by
  refine Reads.orElse ?_ (keeps_separated1 keeps_importItem keeps_comma)
  refine keeps_importPath.bind fun us path hp => ?_
  refine (keeps_operator _).bind fun vs _ hc => ?_
  refine (keeps_separated1 keeps_importItem keeps_comma).bind fun ws items hi => Reads.pure ?_
  exact (hp.append (hc.append (hi.append .nil))).under (by simp)

theorem keeps_importStatement : KeepsNode importStatement := by
  refine (Reads.orElse (keeps_keyword rfl) (keeps_keyword rfl)).bind fun us word hw => ?_
  refine keeps_importItems.bind fun vs items hi => Reads.pure ?_
  exact (hw.append (hi.append .nil)).under (by simp)

theorem keeps_exportStatement : KeepsNode exportStatement := by
  refine (keeps_keyword rfl).bind fun us word hw => ?_
  refine (keeps_separated1 keeps_importName keeps_comma).bind fun vs names hn => Reads.pure ?_
  exact (hw.append (hn.append .nil)).under (by simp)

theorem keeps_declaration {word : Keyword} {kind : Kind} (still : word.isStill = true) :
    KeepsNode (declaration word kind) := by
  refine (keeps_keyword still).bind fun us word hw => ?_
  refine (keeps_rule Row.assignment).bind fun vs node hn => Reads.pure ?_
  exact (hw.append (hn.append .nil)).under (by simp)

theorem keeps_returnStatement : KeepsNode returnStatement := by
  refine (keeps_keyword rfl).bind fun us word hw => ?_
  refine (keeps_optionNode (keeps_rule Row.assignment)).bind fun vs value hv => Reads.pure ?_
  exact (hw.append (hv.append .nil)).under (by simp)

theorem keeps_wordAlone {word : Keyword} {kind : Kind} (still : word.isStill = true) :
    KeepsNode (leaf kind <$> keyword word) :=
  Reads.map (keeps_keyword still) fun _ _ h => h.under (by simp)

theorem keeps_keywordStatement : KeepsNode keywordStatement := by
  refine Reads.orElse keeps_structDefinition ?_
  refine Reads.orElse keeps_abstractDefinition ?_
  refine Reads.orElse keeps_primitiveDefinition ?_
  refine Reads.orElse keeps_moduleDefinition ?_
  refine Reads.orElse (keeps_definition rfl keeps_signature) ?_
  refine Reads.orElse keeps_importStatement ?_
  refine Reads.orElse keeps_exportStatement ?_
  refine Reads.orElse (keeps_declaration rfl) ?_
  refine Reads.orElse (keeps_declaration rfl) ?_
  refine Reads.orElse (keeps_declaration rfl) ?_
  refine Reads.orElse keeps_returnStatement ?_
  exact Reads.orElse (keeps_wordAlone rfl) (keeps_wordAlone rfl)

theorem keeps_statement : KeepsNode statement :=
  Reads.orElse keeps_keywordStatement (keeps_rule Row.assignment)

theorem rules_settle : RulesMeet SettlesNode :=
  ⟨keeps_paren, keeps_primary, keeps_typed, keeps_unary, keeps_ternary, keeps_pair,
    keeps_whereExpression, keeps_arrow, keeps_expression, keeps_assignmentExpression,
    keeps_statement⟩

theorem keeps_fileItem : KeepsNode fileItem := by
  refine Reads.orElse ?_ (keeps_unread _)
  refine (keeps_rule Row.statement).bind fun us node hn => ?_
  refine (Reads.orElse (keeps_ahead _) (Reads.endOfTokens.mono ?_)).bind fun vs _ hv =>
    Reads.pure ?_
  · rintro _ _ _ rfl
    exact .nil
  · exact hn.append (hv.append .nil)

theorem keeps_file : Keeps file Node.children := by
  refine (keeps_manyMarks keeps_separator).bind fun us _ hu => ?_
  refine (keeps_separated keeps_fileItem (keeps_many1Marks keeps_separator)).bind
    fun vs items hi => ?_
  refine (keeps_manyMarks keeps_separator).bind fun ws _ hw => ?_
  refine (keeps_optionNode (Reads.map (Reads.token _) fun ts t _ => settles_unread ts t.span)).bind
    fun xs failure hf => ?_
  refine Reads.endOfTokens.bind fun _ _ none => Reads.pure ?_
  subst none
  simpa using hu.append (hi.append (hw.append (hf.append .nil)))

/-- The tokens of a text settle if its tree is clear. -/
theorem tokenizeRecovering_settles (text : Text) :
    Settles (tokenizeRecovering text) (parse text).children := by
  obtain ⟨_, ordered, errorLast⟩ := tokenizeRecovering_wellPlaced text
  have tokens := tokens_ofTokens (tokenizeRecovering text)
  have meets := rules_settle.ofTokens ordered
  have spelled := ofTokens_meets ordered
  rw [← tokens] at ordered errorLast
  -- that the file rule leaves no token is known from the spelling, not from what is open
  obtain ⟨root, read⟩ := file_total spelled ordered errorLast
  obtain ⟨taken, chart, settles⟩ := keeps_file _ meets ordered root [] read
  rw [List.append_nil] at chart
  rw [← chart, tokens] at settles
  have same : (parse text).children = root.children := by simp [parse, parse?, read]
  rw [same]
  exact settles

theorem Node.read_of_clean {node n : Node} (clean : node.hasErrors = false)
    (member : n ∈ node.preorder) : n.kind ≠ .error := by
  have read := List.any_eq_false.mp clean n member
  simpa using read

/-- Where the tree has no errors, the scanner reaches the end of the text. -/
theorem tokenize_of_clean {text : Text} (clean : (parse text).hasErrors = false) :
    ∃ ts, tokenize text = .ok ts := by
  cases result : tokenize text with
  | ok ts => exact ⟨ts, rfl⟩
  | error e =>
    obtain ⟨_, _, items, _, _, _, root, _⟩ := parse_of_error result
    let failure : Node := .leaf .error ⟨e.start, text.byteSize⟩
    have child : failure ∈ (parse text).children := by simp [root, failure]
    have below : failure ∈ (parse text).preorder :=
      Node.mem_preorder.mpr (.inr ⟨failure, child, Node.mem_preorder.mpr (.inl rfl)⟩)
    exact absurd rfl (Node.read_of_clean clean below)

/-- Where the tree of a text has no errors, the scanner has closed at the end of the text every
bracket, block, string and interpolation it opened, unless one of its words does what the tree does
not say: the word of a symbol closes something, or opens a block that no bracket closes, or the word
that starts a conditional or loop opens no block. -/
theorem frames_closed_at_end (text : Text) (clean : (parse text).hasErrors = false)
    (heard : ∀ n ∈ (parse text).preorder, n.Heard (tokenizeRecovering text).reverse) :
    (Scanner.initial.run text).2 = none ∧ (Scanner.initial.run text).1.frames = [] := by
  obtain ⟨ts, ok⟩ := tokenize_of_clean clean
  obtain ⟨_, s, turns, run, _, tokens⟩ := tokenize_turns ok
  have enclosed := turns.enclosed .initial
  have emitted : (tokenizeRecovering text).reverse = s.emitted := by
    rw [tokenizeRecovering_of_ok ok, ← tokens, Scanner.tokens, List.reverse_reverse]
  have settled : enclosures s.emitted = [] := by
    have settles := tokenizeRecovering_settles text []
    rw [List.append_nil, emitted] at settles
    refine (settles ⟨?_, ?_⟩).exact rfl
    · rw [List.append_nil, emitted]
      exact enclosed.fit
    · intro child member n below
      have inside : n ∈ (parse text).preorder := Node.mem_preorder.mpr (.inr ⟨child, member, below⟩)
      rw [List.append_nil]
      exact ⟨heard n inside, Node.read_of_clean clean inside⟩
  have frames := enclosed.frames
  rw [settled] at frames
  rw [run]
  exact ⟨rfl, List.forall₂_nil_right_iff.mp frames⟩

/-- A conditional with a symbol, a comprehension over a string, and a block word that is quoted among
arguments. -/
def conditionalAndString : Text :=
  ['i', 'f', ' ', 'a', '\n', ':', 'x', '\n', 'e', 'n', 'd', '\n', '[', 'f', '(', 'y', ')', ' ',
    'f', 'o', 'r', ' ', 'y', ' ', 'i', 'n', ' ', '"', '$', '(', 'z', ')', '"', ']', '\n', 'g', '(',
    ':', 'i', 'f', ',', ' ', 'c', ')']

theorem conditional_and_string_closed :
    (parse conditionalAndString).hasErrors = false ∧
      (∀ n ∈ (parse conditionalAndString).preorder,
        n.Heard (tokenizeRecovering conditionalAndString).reverse) ∧
      (Scanner.initial.run conditionalAndString).2 = none ∧
      (Scanner.initial.run conditionalAndString).1.frames = [] := by
  have clean : (parse conditionalAndString).hasErrors = false := by decide +kernel
  have heard : ∀ n ∈ (parse conditionalAndString).preorder,
      n.Heard (tokenizeRecovering conditionalAndString).reverse := by decide +kernel
  exact ⟨clean, heard, frames_closed_at_end conditionalAndString clean heard⟩

def symbolOfWord : Text := [':', 'l', 'e', 't']

/-- A conditional behind a value inside brackets, and a generator around its block. -/
def conditionalArgument : Text :=
  ['(', 'b', 'e', 'g', 'i', 'n', ' ', '(', '@', 'm', ' ', 'a', ' ', 'i', 'f', ' ', 'b', ' ', 'c',
    ' ', 'e', 'n', 'd', ')', ' ', 'e', 'n', 'd', ' ', 'f', 'o', 'r', ' ', 'x', ' ', 'i', 'n', ' ',
    'y', ')']

/-- The word of the symbol opens a block that nothing closes. The word of the conditional opens
none, so that its `end` closes the block around it with the bracket, and the word of the generator
opens a block that no bracket closes. -/
theorem frames_left_open :
    (parse symbolOfWord).hasErrors = false ∧
      (Scanner.initial.run symbolOfWord).1.frames.map (·.kind) = [.block] ∧
    (parse conditionalArgument).hasErrors = false ∧
      (Scanner.initial.run conditionalArgument).1.frames.map (·.kind) = [.block] := by
  decide +kernel

end CellBindings
