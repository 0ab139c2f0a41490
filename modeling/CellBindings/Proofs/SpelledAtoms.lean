import CellBindings.Proofs.SpelledArguments

/-!
Operands. Brackets, strings, quotations, macro calls and the constructs that `end` closes are
spelled by the tokens they take. A part of a construct leaves the separators behind its block to
the construct around it.
-/

namespace CellBindings

open CellBindings.Parser Grammar

theorem yields_paren : Yields paren Spelled := by
  refine Reads.orElse ?_ (Reads.orElse (Reads.ordered ?_) (Reads.orElse ?_ (Reads.orElse ?_
    (Reads.orElse ?_ (Reads.ordered ?_)))))
  · refine (yields_punctuation '(').bind fun _ first ⟨hf, mf⟩ => ?_
    refine (yields_punctuation ')').bind fun _ last ⟨hl, ml⟩ => Reads.pure ?_
    subst hf hl
    exact @spelled_bracketed .tupleExpression _ _ [] _ (by decide) mf ml .nil
  · refine (yields_punctuation '(').bind fun _ first ⟨hf, mf⟩ => ?_
    refine (yields_punctuation ';').bind fun _ semicolon ⟨hs, ms⟩ => ?_
    refine (yields_commaList yields_callItem).bind fun ts items hi => ?_
    refine (yields_punctuation ')').bind fun _ last ⟨hl, ml⟩ => Reads.pure fun ho => ?_
    subst hf hs hl
    have inner := keywordArguments_strewn ms hi (@Ordered.left (semicolon :: ts) [last] ho.tail)
    exact @spelled_bracketed .tupleExpression _ _ (semicolon :: ts) _ (by decide) mf ml (inner _)
  · refine (yields_punctuation '(').bind fun _ first ⟨hf, mf⟩ => ?_
    refine (yields_clauses .generator).bind fun ts node ⟨_, hj⟩ => ?_
    refine (yields_punctuation ')').bind fun _ last ⟨hl, ml⟩ => Reads.pure ?_
    subst hf hl
    exact spelled_bracketed (by decide) mf ml (hj.built.strewn _)
  · refine (yields_punctuation '(').bind fun _ first ⟨hf, mf⟩ => ?_
    refine yields_callItem.bind fun us item hi => ?_
    refine yields_comma.bind fun _ t ⟨ht, mt⟩ => ?_
    refine (yields_commaList yields_callItem).bind fun vs items hs => ?_
    refine (yields_punctuation ')').bind fun _ last ⟨hl, ml⟩ => Reads.pure ?_
    subst hf ht hl
    have inner : Forest Token.IsMark Built first.span.stop (us ++ t :: vs) (item :: items) :=
      .node hi.built (.token mt (hs.strewn _))
    simpa using @spelled_bracketed .tupleExpression _ _ _ _ (by decide) mf ml inner
  · refine (yields_punctuation '(').bind fun _ first ⟨hf, mf⟩ => ?_
    refine (yields_rule Row.statement).bind fun ts node hs => ?_
    refine (yields_punctuation ')').bind fun _ last ⟨hl, ml⟩ => Reads.pure ?_
    subst hf hl
    exact spelled_bracketed (by decide) mf ml (hs.strewn _)
  · refine (yields_punctuation '(').bind fun _ first ⟨hf, mf⟩ => ?_
    refine (Reads.separated1 (yields_rule Row.statement)
      (yields_punctuation ';')).bind fun us nodes hs => ?_
    refine (Reads.option (yields_punctuation ';')).bind fun vs _ hv => ?_
    refine (yields_punctuation ')').bind fun _ last ⟨hl, ml⟩ => Reads.pure fun ho => ?_
    subst hf hl
    have body := @built_wrap .block _ _ (by decide) (joined_of_marks hs).built ho.right.left
    have inner : Forest Token.IsMark Built first.span.stop (us ++ vs) [.wrap .block nodes] :=
      .node body (.of_marks (pieces_marks hv))
    simpa using @spelled_bracketed .parenthesizedExpression _ _ _ _ (by decide) mf ml inner

theorem yields_matrixRow : Yields matrixRow Spelled := by
  refine Reads.ordered (Reads.map (Reads.many1 (yields_rule Row.arrow)) ?_)
  intro ts nodes ⟨hn, pieces⟩ ho
  exact spelled_wrap (by decide) (joined_of_pieces hn pieces) ho

theorem yields_bracket : Yields bracket Spelled := by
  refine Reads.orElse ?_ (Reads.orElse ?_ (Reads.orElse ?_ ?_))
  · refine (yields_punctuation '[').bind fun _ first ⟨hf, mf⟩ => ?_
    refine (yields_punctuation ']').bind fun _ last ⟨hl, ml⟩ => Reads.pure ?_
    subst hf hl
    exact @spelled_bracketed .vectorExpression _ _ [] _ (by decide) mf ml .nil
  · refine (yields_punctuation '[').bind fun _ first ⟨hf, mf⟩ => ?_
    refine (yields_clauses .comprehension).bind fun ts node ⟨_, hj⟩ => ?_
    refine (yields_punctuation ']').bind fun _ last ⟨hl, ml⟩ => Reads.pure ?_
    subst hf hl
    exact spelled_bracketed (by decide) mf ml (hj.built.strewn _)
  · refine (yields_punctuation '[').bind fun _ first ⟨hf, mf⟩ => ?_
    refine (Reads.separated1 (yields_rule Row.arrow) yields_comma).bind fun us items hs => ?_
    refine (Reads.option yields_comma).bind fun vs _ hv => ?_
    refine (yields_punctuation ']').bind fun _ last ⟨hl, ml⟩ => Reads.pure ?_
    subst hf hl
    have inner := (listed_of_separated hs hv).strewn
    simpa using @spelled_bracketed .vectorExpression _ _ _ _ (by decide) mf ml (inner _)
  · refine (yields_punctuation '[').bind fun _ first ⟨hf, mf⟩ => ?_
    refine (Reads.separated1 yields_matrixRow (yields_punctuation ';')).bind fun us rows hs => ?_
    refine (Reads.option (yields_punctuation ';')).bind fun vs _ hv => ?_
    refine (yields_punctuation ']').bind fun _ last ⟨hl, ml⟩ => Reads.pure ?_
    subst hf hl
    have inner := (listed_of_separated hs hv).strewn
    simpa using @spelled_bracketed .matrixExpression _ _ _ _ (by decide) mf ml (inner _)

theorem yields_braces : Yields braces Spelled := by
  refine (yields_punctuation '{').bind fun _ first ⟨hf, mf⟩ => ?_
  refine (yields_commaList (yields_rule Row.arrow)).bind fun ts items hi => ?_
  refine (yields_punctuation '}').bind fun _ last ⟨hl, ml⟩ => Reads.pure ?_
  subst hf hl
  exact spelled_bracketed (by decide) mf ml (hi.strewn _)

theorem yields_interpolation : Yields interpolation Spelled := by
  refine Reads.ordered ?_
  refine (yields_operator ['$']).bind fun _ mark ⟨hm, mm⟩ => ?_
  refine (Reads.orElse yields_name (yields_rule Row.paren)).bind fun ts node hn =>
    Reads.pure fun ho => ?_
  subst hm
  rw [List.append_nil] at ho ⊢
  exact spelled_lead_one (by decide) mm hn ho

theorem yields_stringLiteral : Yields stringLiteral Spelled := by
  refine (yields_kind (by decide)).bind fun _ first ⟨hf, mf⟩ => ?_
  refine (Reads.many (P := fun ts part => Strewn ts part.toList) ?_).bind fun ts parts hp => ?_
  · refine Reads.orElse (Reads.map yields_interpolation fun ts node hn => hn.strewn)
      (Reads.map (yields_kind (by decide)) ?_)
    rintro _ t ⟨rfl, mt⟩ place
    exact .of_marks (by simpa using mt)
  · refine (yields_kind (by decide)).bind fun _ last ⟨hl, ml⟩ => Reads.pure ?_
    subst hf hl
    refine spelled_bracketed (by decide) mf ml ?_
    have inner : Strewn ts (parts.filterMap id) := by
      clear mf ml
      induction hp with
      | nil => exact fun _ => .nil
      | @cons us vs part parts piece _ ih =>
        intro place
        have joined := (piece place).append (ih (stopAfter place us))
        cases part with
        | none => simpa using joined
        | some node => simpa using joined
    exact inner _

theorem yields_quotation : Yields quotation Spelled := by
  refine Reads.ordered ?_
  refine (yields_operator [':']).bind fun _ colon ⟨hc, mc⟩ => ?_
  refine (Reads.ahead _).bind fun _ _ he => ?_
  refine (yields_rule Row.paren).bind fun ts node hn => Reads.pure fun ho => ?_
  subst hc he
  rw [List.append_nil] at ho ⊢
  exact spelled_lead_one (by decide) mc hn ho

theorem isSymbolName_closed {t : Token} (h : isSymbolName t = true) : t.kind ≠ .error := by
  intro hk
  simp [isSymbolName, hk] at h

theorem yields_symbol : Yields symbol Spelled := by
  refine Reads.orElse ?_ (Reads.map (yields_operator [':']) ?_)
  · refine (Reads.token _).bind fun _ colon ⟨hc, oc⟩ => ?_
    refine (Reads.token _).bind fun _ t ⟨ht, nt⟩ => Reads.pure ?_
    subst hc ht
    exact ⟨.symbol oc nt,
      closed_append [colon] (List.cons_ne_nil _ _) (closed_singleton (isSymbolName_closed nt))⟩
  · rintro _ t ⟨rfl, mt⟩
    exact spelled_leaf (leafOf_mark mt rfl (by decide) (by decide) (by decide))

theorem yields_factor : Yields factor Spelled := by
  refine Reads.orElse (Reads.map (Reads.token _) ?_) ?_
  · rintro _ t ⟨rfl, ht⟩
    simp only [Bool.and_eq_true, beq_iff_eq] at ht
    exact spelled_leaf (leafOf_identifier ht.1)
  · refine (Reads.ahead _).bind fun _ _ he => ?_
    subst he
    exact yields_rule Row.paren

theorem yields_literal {token : Token.Kind} {kind : Kind}
    (ht : token ≠ .identifier ∧ token ≠ .macroName ∧ token ≠ .error)
    (hk : kind.isLeaf = true ∧ kind ≠ .symbol ∧ kind ≠ .identifier ∧ kind ≠ .macroIdentifier) :
    Yields (leaf kind <$> Parser.kind token) Spelled := by
  refine Reads.map (yields_kind ht) ?_
  rintro _ t ⟨rfl, mt⟩
  exact spelled_leaf (leafOf_mark mt hk.1 hk.2.1 hk.2.2.1 hk.2.2.2)

theorem yields_number : Yields number Spelled := by
  refine Reads.ordered ?_
  refine (Reads.orElse (yields_literal (by decide) (by decide))
    (yields_literal (by decide) (by decide))).bind fun us literal hl => ?_
  refine (Reads.option yields_factor).bind fun vs right hr => Reads.pure fun ho => ?_
  rw [List.append_nil] at ho ⊢
  rcases hr.option with ⟨rfl, rfl⟩ | ⟨node, rfl, hn⟩
  · simpa using hl
  · exact spelled_wrap (by decide) (.next hl (.one hn)) ho

theorem yields_operatorValue : Yields operatorValue Spelled := by
  refine (Reads.token _).bind fun _ t ⟨ht, ot⟩ => ?_
  refine (Reads.ahead _).bind fun _ _ he => Reads.pure ?_
  subst ht he
  simp only [Bool.and_eq_true, beq_iff_eq] at ot
  have mt : t.IsMark := isMark_of_kind ot.1.1 (by decide)
  exact spelled_leaf (leafOf_mark mt rfl (by decide) (by decide) (by decide))

theorem yields_macroName : Yields macroName Spelled := by
  refine Reads.map (Reads.token _) ?_
  rintro _ t ⟨rfl, ht⟩
  exact spelled_leaf (leafOf_macroName (by simpa using ht))

theorem yields_macroCallee : Yields macroCallee Spelled := by
  refine Reads.orElse (Reads.ordered ?_) yields_macroName
  refine yields_name.bind fun us base hb => ?_
  refine (Reads.many (yields_markThen (yields_operator ['.']) yields_name)).bind
    fun vs path hp => ?_
  refine (yields_operator ['.']).bind fun _ t ⟨ht, mt⟩ => ?_
  refine yields_macroName.bind fun ws callee hc => Reads.pure fun ho => ?_
  subst ht
  rw [List.append_nil, ← List.append_assoc] at ho ⊢
  have module_path : Spelled (us ++ vs) (path.foldl fieldAccess base) := by
    refine hp.foldl ?_ ho.left hb
    rintro us base _ field ho hb ⟨t, vs, rfl, mt, hf⟩
    exact spelled_wrap (by decide) (.past hb mt (.one hf)) ho
  exact spelled_wrap (by decide) (.past module_path mt (.one hc)) ho

theorem yields_macroCall : Yields macroCall Spelled := by
  refine Reads.orElse (Reads.ordered ?_) (Reads.ordered ?_)
  · refine yields_macroCallee.bind fun us callee hc => ?_
    refine (yields_argumentList (yields_tight '(')).bind fun vs arguments ha =>
      Reads.pure fun ho => ?_
    rw [List.append_nil] at ho ⊢
    exact spelled_wrap (by decide) (.next hc (.one ha)) ho
  · refine yields_macroCallee.bind fun us callee hc => ?_
    refine (Reads.many (yields_rule Row.statement)).bind fun vs arguments ha =>
      Reads.pure fun ho => ?_
    rw [List.append_nil] at ho ⊢
    exact spelled_wrap (by decide) (joined_of_pieces (List.cons_ne_nil _ _) (.cons hc ha)) ho

theorem yields_signature : Yields signature Spelled := by
  refine Reads.ordered ?_
  refine (yields_rule Row.whereExpression).bind fun ts node hs => Reads.pure fun ho => ?_
  rw [List.append_nil] at ho ⊢
  exact spelled_wrap (by decide) (.one hs) ho

/-- The place where a node stops that is built from a run. -/
theorem Spelled.stop_eq {ts : List Token} {node : Node} (h : Spelled ts node) (place : Nat) :
    stopAfter place ts = node.span.stop := by
  rw [h.built.span_eq, stopAfter_of_ne_nil place h.built.ne_nil]

theorem Spelled.stop_behind {t : Token} {ts : List Token} {node : Node} (h : Spelled ts node) :
    (extent (t :: ts)).stop = node.span.stop := by
  rw [h.built.span_eq]
  exact extent_append_stop [t] h.built.ne_nil

/-- A head and the body behind it. -/
theorem Spelled.with_body {us vs : List Token} {head body : Node} (hh : Spelled us head)
    (hb : BlockRun vs body) : Strewn (us ++ vs) [head, placeBlock body head.span.stop] := by
  intro place
  have inner := hb.forest (stopAfter place us)
  rw [hh.stop_eq] at inner
  exact .node hh.built (hh.stop_eq place ▸ inner)

theorem yields_definition {word : Keyword} {kind : Kind} {head : Parser Node} (hk : kind.IsBranch)
    (hh : Yields head Spelled) : Yields (definition word kind head) Spelled := by
  refine (yields_keyword word).bind fun _ first ⟨hf, mf⟩ => ?_
  refine hh.bind fun us head hs => ?_
  refine yields_block.bind fun vs body hb => ?_
  refine (yields_keyword .endKw).bind fun _ last ⟨hl, ml⟩ => Reads.pure ?_
  subst hf hl
  simpa using spelled_bracketed hk mf ml (hs.with_body hb _)

theorem yields_enclosed {word : Keyword} {kind : Kind} (hk : kind.IsBranch) :
    Yields (enclosed word kind) Spelled := by
  refine (yields_keyword word).bind fun _ first ⟨hf, mf⟩ => ?_
  refine yields_block.bind fun ts body hb => ?_
  refine (yields_keyword .endKw).bind fun _ last ⟨hl, ml⟩ => Reads.pure ?_
  subst hf hl
  exact spelled_bracketed hk mf ml (hb.forest _)

theorem yields_letBlock : Yields letBlock Spelled :=
  yields_headed (by decide) (by decide) (yields_rule Row.expression)

theorem yields_forBlock : Yields forBlock Spelled := by
  refine (yields_keyword .forKw).bind fun _ first ⟨hf, mf⟩ => ?_
  refine yields_forBindings.bind fun us bindings hj => ?_
  refine yields_block.bind fun vs body hb => ?_
  refine (yields_keyword .endKw).bind fun _ last ⟨hl, ml⟩ => Reads.pure ?_
  subst hf hl
  obtain ⟨node, getLast, stop⟩ := hj.built.getLast
  have inner := (hj.built.strewn first.span.stop).append (hb.forest _)
  rw [stopAfter_of_ne_nil _ hj.built.ne_nil, ← stop] at inner
  simpa [getLast] using @spelled_bracketed .forStatement _ _ _ _ (by decide) mf ml inner

theorem yields_part {word : Keyword} {kind : Kind} (hk : kind.IsBranch) :
    Yields (part word kind) fun ts node => Strewn ts [node] := by
  refine Reads.ordered ?_
  refine (yields_keyword word).bind fun _ first ⟨hf, mf⟩ => ?_
  refine yields_block.bind fun ts body hb => Reads.pure fun ho => ?_
  subst hf
  rw [List.append_nil] at ho ⊢
  exact hb.clause kind hk (List.cons_ne_nil _ _) (.token mf .nil) ho

theorem yields_elseifClause : Yields elseifClause fun ts node => Strewn ts [node] := by
  refine Reads.ordered ?_
  refine (yields_keyword .elseifKw).bind fun _ first ⟨hf, mf⟩ => ?_
  refine (yields_rule Row.arrow).bind fun us condition hc => ?_
  refine yields_block.bind fun ts body hb => Reads.pure fun ho => ?_
  subst hf
  rw [List.append_nil, ← List.append_assoc] at ho ⊢
  have front : Forest Token.IsMark Built first.span.start (first :: us) [condition] :=
    .token mf (hc.strewn _)
  have hs := hb.clause .elseifClause (by decide) (List.cons_ne_nil _ _) front ho
  rw [hc.stop_behind] at hs
  exact hs

theorem yields_ifBlock : Yields ifBlock Spelled := by
  refine (yields_keyword .ifKw).bind fun _ first ⟨hf, mf⟩ => ?_
  refine (yields_rule Row.arrow).bind fun us condition hc => ?_
  refine yields_block.bind fun vs body hb => ?_
  refine (Reads.many yields_elseifClause).bind fun ws others ho => ?_
  refine (Reads.option (yields_part (by decide))).bind fun xs otherwise hx => ?_
  refine (yields_keyword .endKw).bind fun _ last ⟨hl, ml⟩ => Reads.pure ?_
  subst hf hl
  have clauses : Strewn (ws ++ xs) (others ++ otherwise.toList) := fun place =>
    (strewn_pieces ho place).append (strewn_pieces hx _)
  have inner := (hc.with_body hb first.span.stop).append (clauses _)
  simpa using @spelled_bracketed .ifStatement _ _ _ _ (by decide) mf ml inner

theorem yields_catchClause : Yields catchClause fun ts node => Strewn ts [node] := by
  refine Reads.ordered ?_
  refine (yields_keyword .catchKw).bind fun _ first ⟨hf, mf⟩ => ?_
  refine (Reads.option yields_name).bind fun us caught hc => ?_
  refine yields_block.bind fun ts body hb => Reads.pure fun ho => ?_
  subst hf
  rw [List.append_nil, ← List.append_assoc] at ho ⊢
  rcases hc.option with ⟨rfl, rfl⟩ | ⟨name, rfl, hn⟩
  · exact hb.clause .catchClause (by decide) (List.cons_ne_nil _ _) (.token mf .nil) ho
  · have front : Forest Token.IsMark Built first.span.start (first :: us) [name] :=
      .token mf (hn.strewn _)
    have hs := hb.clause .catchClause (by decide) (List.cons_ne_nil _ _) front ho
    rw [hn.stop_behind] at hs
    exact hs

theorem yields_tryBlock : Yields tryBlock Spelled := by
  refine (yields_keyword .tryKw).bind fun _ first ⟨hf, mf⟩ => ?_
  refine yields_block.bind fun us body hb => ?_
  refine (Reads.option yields_catchClause).bind fun vs handler hh => ?_
  refine (Reads.option (yields_part (by decide))).bind fun ws otherwise hw => ?_
  refine (Reads.option (yields_part (by decide))).bind fun xs cleanup hx => ?_
  refine (yields_keyword .endKw).bind fun _ last ⟨hl, ml⟩ => Reads.pure ?_
  subst hf hl
  have clauses : Strewn (vs ++ (ws ++ xs))
      (handler.toList ++ (otherwise.toList ++ cleanup.toList)) := fun place =>
    (strewn_pieces hh place).append ((strewn_pieces hw _).append (strewn_pieces hx _))
  have inner := (hb.forest first.span.stop).append (clauses _)
  simpa using @spelled_bracketed .tryStatement _ _ _ _ (by decide) mf ml inner

theorem yields_blockConstruct : Yields blockConstruct Spelled := by
  refine Reads.orElse (yields_definition (by decide) yields_signature) ?_
  refine Reads.orElse (yields_enclosed (by decide)) ?_
  refine Reads.orElse yields_letBlock ?_
  refine Reads.orElse yields_forBlock ?_
  refine Reads.orElse (yields_definition (by decide) (yields_rule Row.arrow)) ?_
  refine Reads.orElse yields_ifBlock ?_
  exact Reads.orElse yields_tryBlock (yields_enclosed (by decide))

theorem yields_boolean :
    Yields (leaf .booleanLiteral <$> (keyword .trueKw <|> keyword .falseKw)) Spelled := by
  refine Reads.map (Reads.orElse (yields_keyword .trueKw) (yields_keyword .falseKw)) ?_
  rintro _ t ⟨rfl, mt⟩
  exact spelled_leaf (leafOf_mark mt rfl (by decide) (by decide) (by decide))

theorem yields_atom : Yields atom Spelled := by
  refine Reads.orElse yields_macroCall ?_
  refine Reads.orElse yields_name ?_
  refine Reads.orElse yields_number ?_
  refine Reads.orElse yields_stringLiteral ?_
  refine Reads.orElse (yields_literal (by decide) (by decide)) ?_
  refine Reads.orElse yields_boolean ?_
  refine Reads.orElse (yields_literal (by decide) (by decide)) ?_
  refine Reads.orElse yields_quotation ?_
  refine Reads.orElse yields_symbol ?_
  refine Reads.orElse yields_interpolation ?_
  refine Reads.orElse (yields_rule Row.paren) ?_
  refine Reads.orElse yields_bracket ?_
  refine Reads.orElse yields_braces ?_
  exact Reads.orElse yields_blockConstruct yields_operatorValue

end CellBindings
