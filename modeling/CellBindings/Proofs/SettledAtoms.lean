import CellBindings.Proofs.SettledArguments

/-!
Operands and what is open. A bracket closes with it the blocks that a comprehension leaves open; an
`end` closes the block that the word of its construct opens, for a conditional or a loop if that
word is heard.
-/

namespace CellBindings

open CellBindings.Parser Grammar

theorem keeps_paren : KeepsNode paren := by
  refine Reads.orElse ?_ (Reads.orElse ?_ (Reads.orElse ?_ (Reads.orElse ?_
    (Reads.orElse ?_ ?_))))
  · refine (takes_bracket '(').bind fun _ first ⟨hf, mf⟩ => ?_
    refine (takes_bracket ')').bind fun _ last ⟨hl, ml⟩ => Reads.pure ?_
    subst hf hl
    exact (settles_opening .round mf (returns_closing .round ml)).under (by simp)
  · refine (takes_bracket '(').bind fun _ first ⟨hf, mf⟩ => ?_
    refine keeps_semicolon.bind fun us semicolon hs => ?_
    refine (keeps_commaList keeps_callItem).bind fun vs items hi => ?_
    refine (takes_bracket ')').bind fun _ last ⟨hl, ml⟩ => Reads.pure ?_
    subst hf hl
    have keywords : Settles vs [keywordArguments semicolon items] :=
      hi.under (by simp [keywordArguments])
    have inner := hs.before (keywords.before (returns_closing .round ml))
    exact (settles_opening .round mf inner).under (by simp)
  · refine (takes_bracket '(').bind fun _ first ⟨hf, mf⟩ => ?_
    refine (leaks_comprehension .generator).bind fun us node hn => ?_
    refine (takes_bracket ')').bind fun _ last ⟨hl, ml⟩ => Reads.pure ?_
    subst hf hl
    exact (settles_opening .round mf (hn.before (returns_closing .round ml))).under (by simp)
  · refine (takes_bracket '(').bind fun _ first ⟨hf, mf⟩ => ?_
    refine keeps_callItem.bind fun us item hi => ?_
    refine keeps_comma.bind fun vs _ hc => ?_
    refine (keeps_commaList keeps_callItem).bind fun ws items hs => ?_
    refine (takes_bracket ')').bind fun _ last ⟨hl, ml⟩ => Reads.pure ?_
    subst hf hl
    have inner := hi.before (hc.before (hs.before (returns_closing .round ml)))
    exact (settles_opening .round mf inner).under (by simp)
  · refine (takes_bracket '(').bind fun _ first ⟨hf, mf⟩ => ?_
    refine (keeps_rule Row.statement).bind fun us node hn => ?_
    refine (takes_bracket ')').bind fun _ last ⟨hl, ml⟩ => Reads.pure ?_
    subst hf hl
    exact (settles_opening .round mf (hn.before (returns_closing .round ml))).under (by simp)
  · refine (takes_bracket '(').bind fun _ first ⟨hf, mf⟩ => ?_
    refine (keeps_separated1 (keeps_rule Row.statement) keeps_semicolon).bind fun us nodes hn => ?_
    refine (keeps_optionMark keeps_semicolon).bind fun vs _ hs => ?_
    refine (takes_bracket ')').bind fun _ last ⟨hl, ml⟩ => Reads.pure ?_
    subst hf hl
    have body : Settles us [.wrap .block nodes] := hn.under (by simp)
    have inner := body.before (hs.before (returns_closing .round ml))
    exact (settles_opening .round mf inner).under (by simp)

theorem keeps_matrixRow : KeepsNode matrixRow :=
  Reads.map (keeps_many1 (keeps_rule Row.arrow)) fun _ _ h => h.under (by simp)

theorem keeps_bracket : KeepsNode bracket := by
  refine Reads.orElse ?_ (Reads.orElse ?_ (Reads.orElse ?_ ?_))
  · refine (takes_bracket '[').bind fun _ first ⟨hf, mf⟩ => ?_
    refine (takes_bracket ']').bind fun _ last ⟨hl, ml⟩ => Reads.pure ?_
    subst hf hl
    exact (settles_opening .square mf (returns_closing .square ml)).under (by simp)
  · refine (takes_bracket '[').bind fun _ first ⟨hf, mf⟩ => ?_
    refine (leaks_comprehension .comprehension).bind fun us node hn => ?_
    refine (takes_bracket ']').bind fun _ last ⟨hl, ml⟩ => Reads.pure ?_
    subst hf hl
    exact (settles_opening .square mf (hn.before (returns_closing .square ml))).under (by simp)
  · refine (takes_bracket '[').bind fun _ first ⟨hf, mf⟩ => ?_
    refine (keeps_separated1 (keeps_rule Row.arrow) keeps_comma).bind fun us items hi => ?_
    refine (keeps_optionMark keeps_comma).bind fun vs _ hc => ?_
    refine (takes_bracket ']').bind fun _ last ⟨hl, ml⟩ => Reads.pure ?_
    subst hf hl
    have inner := hi.before (hc.before (returns_closing .square ml))
    exact (settles_opening .square mf inner).under (by simp)
  · refine (takes_bracket '[').bind fun _ first ⟨hf, mf⟩ => ?_
    refine (keeps_separated1 keeps_matrixRow keeps_semicolon).bind fun us rows hr => ?_
    refine (keeps_optionMark keeps_semicolon).bind fun vs _ hs => ?_
    refine (takes_bracket ']').bind fun _ last ⟨hl, ml⟩ => Reads.pure ?_
    subst hf hl
    have inner := hr.before (hs.before (returns_closing .square ml))
    exact (settles_opening .square mf inner).under (by simp)

theorem keeps_braces : KeepsNode braces := by
  refine (takes_bracket '{').bind fun _ first ⟨hf, mf⟩ => ?_
  refine (keeps_commaList (keeps_rule Row.arrow)).bind fun us items hi => ?_
  refine (takes_bracket '}').bind fun _ last ⟨hl, ml⟩ => Reads.pure ?_
  subst hf hl
  exact (settles_opening .curly mf (hi.before (returns_closing .curly ml))).under (by simp)

theorem keeps_interpolation : KeepsNode interpolation := by
  refine (keeps_operator _).bind fun us mark hm => ?_
  refine (Reads.orElse keeps_name (keeps_rule Row.paren)).bind fun vs node hn => Reads.pure ?_
  exact (hm.append (hn.append .nil)).under (by simp)

theorem keeps_stringLiteral : KeepsNode stringLiteral := by
  refine (takes_kind .stringStart).bind fun _ first starts => ?_
  refine (@keeps_many _ _ Option.toList ?_).bind fun us parts hp => ?_
  · refine Reads.orElse (Reads.map keeps_interpolation fun _ _ h => h)
      (Reads.map (keeps_still ?_ fun _ => []) fun _ _ h => h)
    intro t h
    simp [Token.isStill, beq_iff_eq.mp h]
  · refine (takes_kind .stringEnd).bind fun _ last ends => Reads.pure ?_
    obtain ⟨rfl, mf⟩ := starts
    obtain ⟨rfl, ml⟩ := ends
    exact (settles_stringStart mf (hp.before (returns_stringEnd ml))).under (by simp)

theorem keeps_quotation : KeepsNode quotation := by
  refine (keeps_operator _).bind fun us colon hc => ?_
  refine (keeps_ahead _).bind fun vs _ ha => ?_
  refine (keeps_rule Row.paren).bind fun ws node hn => Reads.pure ?_
  exact (hc.append (ha.append (hn.append .nil))).under (by simp)

theorem keeps_symbol : KeepsNode symbol := by
  refine Reads.orElse ?_ (Reads.map (keeps_operator _) fun _ _ h => h.under (by simp))
  refine (Reads.token _).bind fun _ colon ⟨hc, mc⟩ => ?_
  refine (Reads.token _).bind fun _ t ⟨ht, _⟩ => Reads.pure ?_
  subst hc ht
  exact settles_symbol (still_of_operator mc)

theorem keeps_factor : KeepsNode factor := by
  refine Reads.orElse (Reads.map (keeps_still ?_ fun t => [leaf .identifier t]) fun _ _ h => h) ?_
  · intro t h
    simp only [Bool.and_eq_true, beq_iff_eq] at h
    exact still_of_kind h.1 rfl
  · refine (keeps_ahead _).bind fun us _ ha => ?_
    exact (keeps_rule Row.paren).mono fun vs node _ hn => ha.append hn

theorem keeps_number : KeepsNode number := by
  refine (Reads.orElse (keeps_literal rfl) (keeps_literal rfl)).bind fun us literal hl => ?_
  refine (@keeps_option _ _ (fun node => [node]) keeps_factor).bind fun vs right hr =>
    Reads.pure ?_
  have both := hl.append (hr.append .nil)
  cases right with
  | none => simpa [SettlesNode] using both
  | some node => exact both.under (by simp)

theorem keeps_operatorValue : KeepsNode operatorValue := by
  refine (keeps_still ?_ fun t => [leaf .operator t]).bind fun us t ht => ?_
  · intro t h
    simp only [Bool.and_eq_true, beq_iff_eq] at h
    exact still_of_kind h.1.1 rfl
  · refine (keeps_ahead _).bind fun vs _ ha => Reads.pure ?_
    exact ht.append (ha.append .nil)

theorem keeps_macroName : KeepsNode macroName := keeps_literal rfl

/-- A node with a mark before it. -/
theorem keeps_behind {sign : Parser Token} {p : Parser Node} (hs : Keeps sign fun _ => [])
    (hp : KeepsNode p) : KeepsNode (do let _ ← sign; p) := by
  refine hs.bind fun us _ hu => ?_
  exact hp.mono fun vs node _ hn => hu.append hn

/-- Parts gathered behind a first node, one at a time. -/
theorem settles_foldl {α : Type} {us vs : List Token} {first : Node} {items : List α}
    {step : Node → α → Node} {nodes : α → List Node}
    (within : ∀ base a, ∀ n ∈ base :: nodes a, n ∈ (step base a).children)
    (hf : Settles us [first]) (pieces : Pieces (fun ws a => Settles ws (nodes a)) vs items) :
    Settles (us ++ vs) [items.foldl step first] := by
  induction pieces generalizing us first with
  | nil => simpa using hf
  | @cons ws vs item items piece _ ih =>
    rw [← List.append_assoc]
    exact ih ((hf.append piece).under (within first item))

theorem keeps_macroCallee : KeepsNode macroCallee := by
  refine Reads.orElse ?_ keeps_macroName
  refine keeps_name.bind fun us base hb => ?_
  refine (Reads.many (keeps_behind (keeps_operator _) keeps_name)).bind fun vs path hp => ?_
  refine (keeps_operator _).bind fun ws _ hd => ?_
  refine keeps_macroName.bind fun xs callee hc => Reads.pure ?_
  have scope := @settles_foldl _ us vs base path fieldAccess (fun node => [node])
    (by simp [fieldAccess]) hb hp
  rw [← List.append_assoc]
  exact (scope.append (hd.append (hc.append .nil))).under (by simp [fieldAccess])

theorem keeps_macroCall : KeepsNode macroCall := by
  refine Reads.orElse ?_ ?_
  · refine keeps_macroCallee.bind fun us callee hc => ?_
    refine (keeps_argumentList (takes_tight '(')).bind fun vs arguments ha => Reads.pure ?_
    exact (hc.append (ha.append .nil)).under (by simp)
  · refine keeps_macroCallee.bind fun us callee hc => ?_
    refine (keeps_manyNodes (keeps_rule Row.statement)).bind fun vs arguments ha => Reads.pure ?_
    exact (hc.append (ha.append .nil)).under (by simp)

theorem keeps_signature : KeepsNode signature := by
  refine (keeps_rule Row.whereExpression).bind fun us node hn => Reads.pure ?_
  exact (hn.append .nil).under (by simp)

theorem keeps_definition {word : Keyword} {kind : Kind} {head : Parser Node}
    (opens : word.alwaysOpens = true) (hh : KeepsNode head) :
    KeepsNode (definition word kind head) := by
  refine (takes_keyword word).bind fun _ first ⟨hf, mf⟩ => ?_
  refine hh.bind fun us head hs => ?_
  refine keeps_block.bind fun vs body hb => ?_
  refine (takes_keyword .endKw).bind fun _ last ⟨hl, ml⟩ => Reads.pure ?_
  subst hf hl
  have inner := hs.before ((hb.body head.span.stop).before (returns_end ml))
  exact (settles_word mf opens inner).under (by simp)

theorem keeps_enclosed {word : Keyword} {kind : Kind} (opens : word.alwaysOpens = true) :
    KeepsNode (enclosed word kind) := by
  refine (takes_keyword word).bind fun _ first ⟨hf, mf⟩ => ?_
  refine keeps_block.bind fun us body hb => ?_
  refine (takes_keyword .endKw).bind fun _ last ⟨hl, ml⟩ => Reads.pure ?_
  subst hf hl
  have inner := (hb.body first.span.stop).before (returns_end ml)
  exact (settles_word mf opens inner).under (by simp)

theorem keeps_letBlock : KeepsNode letBlock := keeps_headed rfl (keeps_rule Row.expression)

theorem keeps_forBlock : KeepsNode forBlock := by
  refine (takes_keyword .forKw).bind fun _ first ⟨hf, _⟩ => ?_
  refine keeps_forBindings.bind fun us bindings hs => ?_
  refine keeps_block.bind fun vs body hb => ?_
  refine (takes_keyword .endKw).bind fun _ last ⟨hl, ml⟩ => Reads.pure ?_
  subst hf hl
  refine settles_heard (.inr rfl) rfl ?_
  have body := hb.body ((bindings.getLast?.map (·.span.stop)).getD first.span.stop)
  exact (hs.before (body.before (returns_end ml))).under (by simp)

theorem keeps_part {word : Keyword} {kind : Kind} (still : word.isStill = true) :
    KeepsNode (part word kind) := by
  refine (keeps_keyword still).bind fun us first hf => ?_
  refine keeps_block.bind fun vs body hb => Reads.pure ?_
  exact (hf.append ((hb.body first.span.stop).append .nil)).under (by simp)

theorem keeps_elseifClause : KeepsNode elseifClause := by
  refine (keeps_keyword rfl).bind fun us first hf => ?_
  refine (keeps_rule Row.arrow).bind fun vs condition hc => ?_
  refine keeps_block.bind fun ws body hb => Reads.pure ?_
  exact (hf.append (hc.append ((hb.body condition.span.stop).append .nil))).under (by simp)

/-- A part that may be missing. -/
theorem keeps_optionNode {p : Parser Node} (h : KeepsNode p) :
    Keeps (Parser.option p) Option.toList :=
  (Reads.option h).mono fun _ _ _ => settles_each

theorem keeps_ifBlock : KeepsNode ifBlock := by
  refine (takes_keyword .ifKw).bind fun _ first ⟨hf, _⟩ => ?_
  refine (keeps_rule Row.arrow).bind fun us condition hc => ?_
  refine keeps_block.bind fun vs body hb => ?_
  refine (keeps_manyNodes keeps_elseifClause).bind fun ws others ho => ?_
  refine (keeps_optionNode (keeps_part rfl)).bind fun xs otherwise hx => ?_
  refine (takes_keyword .endKw).bind fun _ last ⟨hl, ml⟩ => Reads.pure ?_
  subst hf hl
  refine settles_heard (.inl rfl) rfl ?_
  have clauses := ho.before (hx.before (returns_end ml))
  exact (hc.before ((hb.body condition.span.stop).before clauses)).under (by simp)

theorem keeps_catchClause : KeepsNode catchClause := by
  refine (keeps_keyword rfl).bind fun us first hf => ?_
  refine (keeps_optionNode keeps_name).bind fun vs caught hc => ?_
  refine keeps_block.bind fun ws body hb => Reads.pure ?_
  have body := hb.body ((caught.map (·.span.stop)).getD first.span.stop)
  exact (hf.append (hc.append (body.append .nil))).under (by simp)

theorem keeps_tryBlock : KeepsNode tryBlock := by
  refine (takes_keyword .tryKw).bind fun _ first ⟨hf, mf⟩ => ?_
  refine keeps_block.bind fun us body hb => ?_
  refine (keeps_optionNode keeps_catchClause).bind fun vs handler hh => ?_
  refine (keeps_optionNode (keeps_part rfl)).bind fun ws otherwise ho => ?_
  refine (keeps_optionNode (keeps_part rfl)).bind fun xs cleanup hx => ?_
  refine (takes_keyword .endKw).bind fun _ last ⟨hl, ml⟩ => Reads.pure ?_
  subst hf hl
  have clauses := hh.before (ho.before (hx.before (returns_end ml)))
  have inner := (hb.body first.span.stop).before clauses
  exact (settles_word mf rfl inner).under (by simp)

theorem keeps_blockConstruct : KeepsNode blockConstruct := by
  refine Reads.orElse (keeps_definition rfl keeps_signature) ?_
  refine Reads.orElse (keeps_enclosed rfl) ?_
  refine Reads.orElse keeps_letBlock ?_
  refine Reads.orElse keeps_forBlock ?_
  refine Reads.orElse (keeps_definition rfl (keeps_rule Row.arrow)) ?_
  refine Reads.orElse keeps_ifBlock ?_
  exact Reads.orElse keeps_tryBlock (keeps_enclosed rfl)

theorem keeps_boolean :
    KeepsNode (leaf .booleanLiteral <$> (keyword .trueKw <|> keyword .falseKw)) :=
  Reads.map (Reads.orElse (keeps_keyword rfl) (keeps_keyword rfl)) fun _ _ h => h.under (by simp)

theorem keeps_atom : KeepsNode atom := by
  refine Reads.orElse keeps_macroCall ?_
  refine Reads.orElse keeps_name ?_
  refine Reads.orElse keeps_number ?_
  refine Reads.orElse keeps_stringLiteral ?_
  refine Reads.orElse (keeps_literal rfl) ?_
  refine Reads.orElse keeps_boolean ?_
  refine Reads.orElse (keeps_literal rfl) ?_
  refine Reads.orElse keeps_quotation ?_
  refine Reads.orElse keeps_symbol ?_
  refine Reads.orElse keeps_interpolation ?_
  refine Reads.orElse (keeps_rule Row.paren) ?_
  refine Reads.orElse keeps_bracket ?_
  refine Reads.orElse keeps_braces ?_
  exact Reads.orElse keeps_blockConstruct keeps_operatorValue

end CellBindings
