import CellBindings.Proofs.ChartAnswers
import CellBindings.Proofs.SpelledAtoms

/-!
Expressions and statements, and the chart of a token list: every answer in it is spelled by the
tokens it takes.
-/

namespace CellBindings

open CellBindings.Parser Grammar

theorem yields_fieldName : Yields fieldName Spelled :=
  Reads.orElse yields_name (Reads.orElse yields_interpolation yields_symbol)

def Extends (ts : List Token) (suffix : Suffix) : Prop :=
  ∀ us base, Ordered (us ++ ts) → Spelled us base → Spelled (us ++ ts) (suffix.apply base)

theorem yields_suffix : Yields suffix Extends := by
  refine Reads.orElse ?_ (Reads.orElse ?_ (Reads.orElse ?_ (Reads.orElse ?_ (Reads.orElse ?_
    (Reads.orElse ?_ ?_)))))
  · refine (yields_argumentList (yields_tight '(')).bind fun vs arguments ha => ?_
    refine (Reads.option yields_doClause).bind fun ws block hb => Reads.pure ?_
    intro us base ho hs
    rw [List.append_nil] at ho ⊢
    rcases hb.option with ⟨rfl, rfl⟩ | ⟨node, rfl, hn⟩
    · rw [List.append_nil] at ho ⊢
      exact spelled_wrap (by decide) (.next hs (.one ha)) ho
    · exact spelled_wrap (by decide) (.next hs (.next ha (.one hn))) ho
  · refine (yields_operator ['.']).bind fun _ dot ⟨hd, md⟩ => ?_
    refine (yields_argumentList (yields_tight '(')).bind fun vs arguments ha => Reads.pure ?_
    intro us base ho hs
    subst hd
    rw [List.append_nil] at ho ⊢
    exact spelled_wrap (by decide) (.past hs md (.one ha)) ho
  · refine (yields_operator ['.']).bind fun _ dot ⟨hd, md⟩ => ?_
    refine yields_fieldName.bind fun vs field hf => Reads.pure ?_
    intro us base ho hs
    subst hd
    rw [List.append_nil] at ho ⊢
    exact spelled_wrap (by decide) (.past hs md (.one hf)) ho
  · refine (yields_tight '[').bind fun _ first ⟨hf, mf⟩ => ?_
    refine yields_indexArguments.bind fun vs arguments ha => ?_
    refine (yields_punctuation ']').bind fun _ last ⟨hl, ml⟩ => Reads.pure ?_
    intro us base _ hs
    subst hf hl
    have inner : Strewn (first :: vs) arguments := fun _ => .token mf (ha _)
    exact spelled_suffixed (by decide) hs ml inner
  · refine (yields_tight '{').bind fun _ first ⟨hf, mf⟩ => ?_
    refine (yields_commaList (yields_rule Row.arrow)).bind fun vs arguments ha => ?_
    refine (yields_punctuation '}').bind fun _ last ⟨hl, ml⟩ => Reads.pure ?_
    intro us base _ hs
    subst hf hl
    have inner : Strewn (first :: vs) arguments := fun _ => .token mf (ha.strewn _)
    exact spelled_suffixed (by decide) hs ml inner
  · refine Reads.map (yields_operator ['\x27']) ?_
    rintro _ t ⟨rfl, mt⟩ us base _ hs
    exact @spelled_suffixed _ _ _ [] _ [] (by decide) hs mt fun _ => .nil
  · refine Reads.map (yields_operator ['.', '.', '.']) ?_
    rintro _ t ⟨rfl, mt⟩ us base _ hs
    exact @spelled_suffixed _ _ _ [] _ [] (by decide) hs mt fun _ => .nil

theorem yields_primary : Yields primary Spelled := by
  refine Reads.ordered ?_
  refine yields_atom.bind fun us base hb => ?_
  refine (Reads.many yields_suffix).bind fun vs suffixes hs => Reads.pure fun ho => ?_
  rw [List.append_nil] at ho ⊢
  exact hs.foldl (fun us base vs suffix ho hb extends_base => extends_base us base ho hb) ho hb

def MarkedNode (ts : List Token) (pair : Token × Node) : Prop :=
  ∃ us, ts = pair.1 :: us ∧ pair.1.IsMark ∧ Spelled us pair.2

theorem yields_markedNode {sign : Parser Token} {p : Parser Node} (hs : YieldsMark sign)
    (hp : Yields p Spelled) :
    Yields (do let op ← sign; let node ← p; return (op, node)) MarkedNode := by
  refine hs.bind fun _ t ⟨ht, mt⟩ => ?_
  refine hp.bind fun us node hn => Reads.pure ?_
  subst ht
  exact ⟨us, by simp, mt, hn⟩

theorem yields_typed : Yields typed Spelled := by
  refine Reads.ordered ?_
  refine (yields_rule Row.primary).bind fun us value hv => ?_
  refine (Reads.many (yields_markThen (yields_operator [':', ':'])
    (yields_rule Row.primary))).bind fun vs types ht => Reads.pure fun ho => ?_
  rw [List.append_nil] at ho ⊢
  refine ht.foldl ?_ ho hv
  rintro us value _ type ho hv ⟨t, vs, rfl, mt, ht⟩
  exact spelled_wrap (by decide) (.past hv mt (.one ht)) ho

theorem spelled_operator {op : Token} (mark : op.IsMark) : Spelled [op] (leaf .operator op) :=
  spelled_leaf (leafOf_mark mark rfl (by decide) (by decide) (by decide))

theorem spelled_binary {us vs : List Token} {left right : Node} {op : Token}
    (ho : Ordered (us ++ op :: vs)) (hl : Spelled us left) (mark : op.IsMark)
    (hr : Spelled vs right) : Spelled (us ++ op :: vs) (binary left op right) :=
  spelled_wrap (by decide) (.next hl (.next (spelled_operator mark) (.one hr))) ho

/-- A chain that leans to the left. -/
theorem spelled_foldBinary {us vs : List Token} {first : Node} {rest : List (Token × Node)}
    (ho : Ordered (us ++ vs)) (hf : Spelled us first) (hr : Pieces MarkedNode vs rest) :
    Spelled (us ++ vs) (foldBinary first rest) := by
  refine hr.foldl ?_ ho hf
  rintro us left _ ⟨op, right⟩ ho hl ⟨vs, rfl, mark, hr⟩
  exact spelled_binary ho hl mark hr

theorem yields_power : Yields power Spelled := by
  refine Reads.ordered ?_
  refine (yields_rule Row.typed).bind fun us base hb => ?_
  refine (Reads.option (yields_markedNode (Reads.orElse (yields_operator ['^'])
    (yields_operator ['.', '^'])) (yields_rule Row.unary))).bind fun vs raised hr =>
      Reads.pure fun ho => ?_
  rw [List.append_nil] at ho ⊢
  exact spelled_foldBinary ho hb hr

theorem isMark_of_among {spellings : List Text} {t : Token} (h : isAmong spellings t = true) :
    t.IsMark := by
  simp only [isAmong, Bool.and_eq_true, beq_iff_eq] at h
  exact isMark_of_kind h.1 (by decide)

theorem isMark_of_assignment {t : Token} (h : isAssignment t = true) : t.IsMark := by
  simp only [isAssignment, Bool.and_eq_true, beq_iff_eq] at h
  exact isMark_of_kind h.1 (by decide)

theorem isMark_of_level {level : Level} {t : Token} (h : level.accepts t = true) : t.IsMark := by
  cases level with
  | disjunction | conjunction => exact isMark_of_operator h
  | comparison =>
    simp only [Level.accepts, isComparison, Bool.or_eq_true] at h
    rcases h with (h | h) | h
    · exact isMark_of_among h
    · exact isMark_of_keyword h
    · exact isMark_of_keyword h
  | pipe | range =>
    simp only [Level.accepts, Bool.or_eq_true] at h
    rcases h with h | h
    · exact isMark_of_operator h
    · exact isMark_of_operator h
  | plus | times | shift => exact isMark_of_among h

theorem yields_unary : Yields unary Spelled := by
  refine Reads.orElse (Reads.ordered ?_) (Reads.orElse (Reads.ordered ?_) yields_power)
  · refine (yields_mark fun _ => isMark_of_among).bind fun _ op ⟨hop, mop⟩ => ?_
    refine (yields_rule Row.unary).bind fun us operand hs => Reads.pure fun ho => ?_
    subst hop
    rw [List.append_nil] at ho ⊢
    exact spelled_wrap (by decide) (.next (spelled_operator mop) (.one hs)) ho
  · refine (yields_operator [':', ':']).bind fun _ colons ⟨hc, mc⟩ => ?_
    refine (yields_rule Row.unary).bind fun us type hs => Reads.pure fun ho => ?_
    subst hc
    rw [List.append_nil] at ho ⊢
    exact spelled_lead_one (by decide) mc hs ho

/-- Nodes with a mark before each, behind a first one. -/
theorem joined_of_markThen {us vs : List Token} {first : Node} {rest : List Node}
    (hf : Spelled us first) (hr : Pieces MarkThen vs rest) :
    Joined Spelled (us ++ vs) (first :: rest) := by
  refine SeparatedBy.of_pieces hf (hr.imp ?_)
  rintro _ node ⟨t, ws, rfl, mt, hn⟩
  exact ⟨[t], ws, rfl, by simpa using mt, hn⟩

theorem pieces_operands {vs : List Token} {rest : List (Token × Node)}
    (h : Pieces MarkedNode vs rest) : Pieces MarkThen vs (rest.map (·.2)) := by
  induction h with
  | nil => exact .nil
  | @cons us vs pair rest piece _ ih =>
    obtain ⟨ws, hw, mark, hs⟩ := piece
    exact .cons ⟨pair.1, ws, hw, mark, hs⟩ ih

theorem spelled_combine (level : Level) {us vs : List Token} {first : Node}
    {rest : List (Token × Node)} (ho : Ordered (us ++ vs)) (hf : Spelled us first)
    (hr : Pieces MarkedNode vs rest) : Spelled (us ++ vs) (level.combine first rest) := by
  rw [Level.combine]
  split
  · exact spelled_wrap (by decide) (joined_of_markThen hf (pieces_operands hr)) ho
  · exact spelled_foldBinary ho hf hr

theorem yields_chain (levels : List Level) : Yields (chain levels) Spelled := by
  induction levels with
  | nil => exact yields_rule Row.unary
  | cons level tighter ih =>
    refine Reads.ordered ?_
    refine ih.bind fun us first hf => ?_
    refine (Reads.many (yields_markedNode (yields_mark fun _ => isMark_of_level)
      ih)).bind fun vs rest hr => Reads.pure fun ho => ?_
    rw [List.append_nil] at ho ⊢
    exact spelled_combine level ho hf hr

theorem yields_ternary : Yields ternary Spelled := by
  refine Reads.ordered ?_
  refine (yields_chain Level.all).bind fun us condition hc => ?_
  refine (Reads.option (P := Pieces MarkThen) ?_).bind fun vs branches hb => Reads.pure fun ho => ?_
  · refine (yields_operator ['?']).bind fun _ mark ⟨hm, mm⟩ => ?_
    refine (yields_rule Row.ternary).bind fun us yes hy => ?_
    refine (yields_kind (by decide)).bind fun _ colon ⟨hk, mk⟩ => ?_
    refine (yields_rule Row.ternary).bind fun vs no hn => Reads.pure ?_
    subst hm hk
    have first : MarkThen (mark :: us) yes := ⟨mark, us, rfl, mm, hy⟩
    have second : MarkThen (colon :: vs) no := ⟨colon, vs, rfl, mk, hn⟩
    simpa using Pieces.cons first (.cons second .nil)
  · rw [List.append_nil] at ho ⊢
    rcases hb.option with ⟨rfl, rfl⟩ | ⟨nodes, rfl, hn⟩
    · simpa using hc
    · exact spelled_wrap (by decide) (joined_of_markThen hc hn) ho

theorem yields_pair : Yields pair Spelled := by
  refine Reads.ordered ?_
  refine (yields_rule Row.ternary).bind fun us left hl => ?_
  refine (Reads.option (yields_markedNode (yields_operator ['=', '>'])
    (yields_rule Row.pair))).bind fun vs right hr => Reads.pure fun ho => ?_
  rw [List.append_nil] at ho ⊢
  exact spelled_foldBinary ho hl hr

theorem yields_whereExpression : Yields whereExpression Spelled := by
  refine Reads.ordered ?_
  refine (yields_rule Row.pair).bind fun us inner hi => ?_
  refine (Reads.many (yields_markThen (yields_keyword .whereKw)
    (yields_rule Row.pair))).bind fun vs clauses hc => Reads.pure fun ho => ?_
  rw [List.append_nil] at ho ⊢
  cases hc with
  | nil => simpa using hi
  | cons piece rest => exact spelled_wrap (by decide) (joined_of_markThen hi (.cons piece rest)) ho

theorem yields_arrow : Yields arrow Spelled := by
  refine Reads.ordered ?_
  refine (yields_rule Row.whereExpression).bind fun us parameters hp => ?_
  refine (Reads.option (yields_markThen (yields_operator ['-', '>'])
    (yields_rule Row.expression))).bind fun vs body hb => Reads.pure fun ho => ?_
  rw [List.append_nil] at ho ⊢
  rcases hb.option with ⟨rfl, rfl⟩ | ⟨node, rfl, t, ws, rfl, mt, hn⟩
  · simpa using hp
  · exact spelled_wrap (by decide) (.past hp mt (.one hn)) ho

theorem yields_assigned {right : Parser Node} (h : Yields right Spelled) :
    Yields (assigned right) MarkedNode :=
  yields_markedNode (yields_mark fun _ => isMark_of_assignment) h

theorem spelled_maybeAssigned {us vs : List Token} {left : Node} {right : Option (Token × Node)}
    (ho : Ordered (us ++ vs)) (hl : Spelled us left) (hr : Pieces MarkedNode vs right.toList) :
    Spelled (us ++ vs) (maybeAssigned left right) := by
  rcases hr.option with ⟨rfl, rfl⟩ | ⟨⟨op, node⟩, rfl, ws, rfl, mark, hn⟩
  · rw [List.append_nil]
    exact hl
  · have hk : (if op.text == ['='] then Kind.assignment else .compoundAssignment).IsBranch := by
      split <;> decide
    exact spelled_wrap hk (.next hl (.next (spelled_operator mark) (.one hn))) ho

theorem yields_expression : Yields expression Spelled := by
  refine Reads.ordered ?_
  refine (yields_rule Row.arrow).bind fun us left hl => ?_
  refine (Reads.option (yields_assigned (yields_rule Row.expression))).bind fun vs right hr =>
    Reads.pure fun ho => ?_
  rw [List.append_nil] at ho ⊢
  exact spelled_maybeAssigned ho hl hr

/-- A comma behind a tuple belongs to it. -/
theorem spelled_trailing {us : List Token} {t : Token} {nodes : List Node}
    (ho : Ordered (us ++ [t])) (hj : Joined Spelled us nodes) (mark : t.IsMark) :
    Spelled (us ++ [t]) { Node.wrap .tupleExpression nodes with
      span := ⟨(Node.wrap .tupleExpression nodes).span.start, t.span.stop⟩ } := by
  have hn := hj.built.ne_nil
  have hs : (⟨(Node.wrap .tupleExpression nodes).span.start, t.span.stop⟩ : Span) =
      extent (us ++ [t]) := by
    ext
    · rw [extent_append_start _ hn, Node.wrap, hj.built.coverAll ho.left]
    · rw [extent_append_stop _ (List.cons_ne_nil _ _)]
      rfl
  have behind : Forest Token.IsMark Built (stopAfter (extent (us ++ [t])).start us) [t] [] :=
    .token mark .nil
  refine ⟨?_, closed_append us (List.cons_ne_nil _ _) (closed_singleton mark.2.2)⟩
  rw [hs]
  refine .branch (show Kind.tupleExpression.IsBranch by decide) (by simp) ?_
  simpa [Node.wrap] using (hj.built.strewn _).append behind

theorem yields_openTuple : Yields openTuple Spelled := by
  refine Reads.ordered ?_
  refine (yields_rule Row.arrow).bind fun us first hf => ?_
  refine (Reads.many (yields_markThen yields_comma (yields_rule Row.arrow))).bind
    fun vs rest hr => ?_
  refine (Reads.option yields_comma).bind fun ws trailing ht => Reads.pure fun ho => ?_
  have hj := joined_of_markThen hf hr
  rw [List.append_nil, ← List.append_assoc] at ho ⊢
  rcases ht.option with ⟨rfl, rfl⟩ | ⟨t, rfl, rfl, mark⟩
  · rw [List.append_nil] at ho ⊢
    cases hr with
    | nil => simpa using hf
    | cons piece pieces => exact spelled_wrap (by decide) hj ho
  · exact spelled_trailing ho hj mark

theorem yields_assignmentExpression : Yields assignmentExpression Spelled := by
  refine Reads.ordered ?_
  refine yields_openTuple.bind fun us left hl => ?_
  refine (Reads.option (yields_assigned (yields_rule Row.assignment))).bind fun vs right hr =>
    Reads.pure fun ho => ?_
  rw [List.append_nil] at ho ⊢
  exact spelled_maybeAssigned ho hl hr

theorem yields_typeHead : Yields typeHead Spelled := by
  refine Reads.ordered ?_
  refine (yields_chain Level.fromComparison).bind fun ts node hs => Reads.pure fun ho => ?_
  rw [List.append_nil] at ho ⊢
  exact spelled_wrap (by decide) (.one hs) ho

theorem yields_structDefinition : Yields structDefinition Spelled := by
  refine (Reads.option (yields_keyword .mutableKw)).bind fun ms mutability hm => ?_
  refine (yields_keyword .structKw).bind fun _ word ⟨hw, mw⟩ => ?_
  refine yields_typeHead.bind fun us head hh => ?_
  refine yields_block.bind fun vs body hb => ?_
  refine (yields_keyword .endKw).bind fun _ last ⟨hl, ml⟩ => Reads.pure ?_
  subst hw hl
  rcases hm.option with ⟨rfl, rfl⟩ | ⟨first, rfl, rfl, mf⟩
  · simpa using @spelled_bracketed .structDefinition _ _ _ _ (by decide) mw ml (hh.with_body hb _)
  · have inner : Forest Token.IsMark Built first.span.stop (word :: (us ++ vs))
        [head, placeBlock body head.span.stop] := .token mw (hh.with_body hb _)
    simpa using @spelled_bracketed .structDefinition _ _ _ _ (by decide) mf ml inner

theorem yields_abstractDefinition : Yields abstractDefinition Spelled := by
  refine (yields_keyword .abstractKw).bind fun _ first ⟨hf, mf⟩ => ?_
  refine (yields_keyword .typeKw).bind fun _ word ⟨hw, mw⟩ => ?_
  refine yields_typeHead.bind fun us head hh => ?_
  refine (yields_keyword .endKw).bind fun _ last ⟨hl, ml⟩ => Reads.pure ?_
  subst hf hw hl
  exact @spelled_bracketed .abstractDefinition _ _ (word :: us) _ (by decide) mf ml
    (.token mw (hh.strewn _))

theorem yields_primitiveDefinition : Yields primitiveDefinition Spelled := by
  refine (yields_keyword .primitiveKw).bind fun _ first ⟨hf, mf⟩ => ?_
  refine (yields_keyword .typeKw).bind fun _ word ⟨hw, mw⟩ => ?_
  refine yields_typeHead.bind fun us head hh => ?_
  refine (yields_rule Row.arrow).bind fun vs bits hb => ?_
  refine (yields_keyword .endKw).bind fun _ last ⟨hl, ml⟩ => Reads.pure ?_
  subst hf hw hl
  have inner : Forest Token.IsMark Built first.span.stop (word :: (us ++ vs)) [head, bits] :=
    .token mw ((hh.strewn _).append (hb.strewn _))
  simpa using @spelled_bracketed .primitiveDefinition _ _ _ _ (by decide) mf ml inner

theorem yields_moduleDefinition : Yields moduleDefinition Spelled :=
  Reads.orElse (yields_definition (by decide) yields_name)
    (yields_definition (by decide) yields_name)

theorem yields_importName : Yields importName Spelled :=
  Reads.orElse yields_name (Reads.orElse yields_macroName (yields_literal (by decide) (by decide)))

theorem yields_importPath : Yields importPath Spelled := by
  refine Reads.ordered ?_
  refine (Reads.many (Reads.orElse (yields_operator ['.']) (Reads.orElse
    (yields_operator ['.', '.']) (yields_operator ['.', '.', '.'])))).bind fun ds dots hd => ?_
  refine yields_importName.bind fun us first hf => ?_
  refine (Reads.many (yields_markThen (yields_operator ['.']) yields_importName)).bind
    fun vs rest hr => Reads.pure fun ho => ?_
  rw [List.append_nil] at ho ⊢
  have hj := joined_of_markThen hf hr
  have hn := hj.built.ne_nil
  obtain ⟨last, getLast, stop⟩ := hj.built.getLast
  obtain ⟨rfl, marks⟩ := pieces_tokens hd
  -- leading dots have no node, so that the children do not reach over the whole path
  have hs : (⟨(ds.head?.map (·.span.start)).getD first.span.start, last.span.stop⟩ : Span) =
      extent (ds ++ (us ++ vs)) := by
    ext
    · cases ds with
      | nil => simp [extent_append_start _ hf.built.ne_nil, hf.built.span_eq]
      | cons t ds => rfl
    · rw [extent_append_stop _ hn, stop]
  refine ⟨?_, closed_append _ hn hj.closed⟩
  simp only [getLast, Option.map_some, Option.getD_some, hs]
  exact .branch (by decide) (by simp [hf.built.ne_nil]) (.after_marks marks (hj.built.strewn _))

theorem yields_importItem : Yields importItem Spelled := by
  refine Reads.ordered ?_
  refine yields_importPath.bind fun us path hp => ?_
  refine (Reads.option (P := fun ts node => ∃ t vs, ts = t :: vs ∧ isAsWord t = true ∧
    Spelled vs node) ?_).bind fun vs newName hn => Reads.pure fun ho => ?_
  · refine (Reads.token _).bind fun _ t ⟨ht, ha⟩ => ?_
    subst ht
    exact yields_importName.mono fun vs node _ hs => ⟨t, vs, rfl, ha, hs⟩
  · rw [List.append_nil] at ho ⊢
    rcases hn.option with ⟨rfl, rfl⟩ | ⟨name, rfl, t, ws, rfl, ha, hs⟩
    · simpa using hp
    · -- the word between the names is spelled like a name: no mark, so no forest of marks
      have cover : Node.coverAll [path, name] = extent (us ++ ([t] ++ ws)) := by
        rw [← extent_cover ho hp.built.ne_nil hs.built.ne_nil, ← hp.built.span_eq,
          ← hs.built.span_eq]
        rfl
      refine ⟨?_, closed_append us (List.cons_ne_nil _ _)
        (closed_append [t] hs.built.ne_nil hs.closed)⟩
      simp only [Node.wrap, cover]
      exact .renamed hp.built ha hs.built

theorem yields_importItems : Yields importItems (Joined Spelled) := by
  refine Reads.orElse (Reads.ordered ?_)
    ((Reads.separated1 yields_importItem yields_comma).mono fun _ _ _ h => joined_of_marks h)
  refine yields_importPath.bind fun us path hp => ?_
  refine (yields_operator [':']).bind fun _ colon ⟨hc, mc⟩ => ?_
  refine (Reads.separated1 yields_importItem yields_comma).bind fun vs items hi =>
    Reads.pure fun ho => ?_
  subst hc
  rw [List.append_nil] at ho ⊢
  exact .one (spelled_wrap (by decide) (.past hp mc (joined_of_marks hi)) ho)

theorem yields_importStatement : Yields importStatement Spelled := by
  refine Reads.ordered ?_
  refine (Reads.orElse (yields_keyword .importKw) (yields_keyword .usingKw)).bind
    fun _ word ⟨hw, mw⟩ => ?_
  refine yields_importItems.bind fun ts items hi => Reads.pure fun ho => ?_
  subst hw
  rw [List.append_nil] at ho ⊢
  have hk : (if word.isKeyword .usingKw then Kind.usingStatement
      else .importStatement).IsBranch := by
    split <;> decide
  exact spelled_lead hk mw hi ho

theorem yields_exportStatement : Yields exportStatement Spelled := by
  refine Reads.ordered ?_
  refine (yields_keyword .exportKw).bind fun _ word ⟨hw, mw⟩ => ?_
  refine (Reads.separated1 yields_importName yields_comma).bind fun ts names hn =>
    Reads.pure fun ho => ?_
  subst hw
  rw [List.append_nil] at ho ⊢
  exact spelled_lead (by decide) mw (joined_of_marks hn) ho

theorem yields_declaration {word : Keyword} {kind : Kind} (hk : kind.IsBranch) :
    Yields (declaration word kind) Spelled := by
  refine Reads.ordered ?_
  refine (yields_keyword word).bind fun _ word ⟨hw, mw⟩ => ?_
  refine (yields_rule Row.assignment).bind fun ts node hs => Reads.pure fun ho => ?_
  subst hw
  rw [List.append_nil] at ho ⊢
  exact spelled_lead_one hk mw hs ho

theorem yields_returnStatement : Yields returnStatement Spelled := by
  refine Reads.ordered ?_
  refine (yields_keyword .returnKw).bind fun _ word ⟨hw, mw⟩ => ?_
  refine (Reads.option (yields_rule Row.assignment)).bind fun ts value hv => Reads.pure fun ho => ?_
  subst hw
  rw [List.append_nil] at ho ⊢
  rcases hv.option with ⟨rfl, rfl⟩ | ⟨node, rfl, hs⟩
  · exact spelled_word (by decide) mw
  · exact spelled_lead_one (by decide) mw hs ho

theorem yields_wordAlone {word : Keyword} {kind : Kind} (hk : kind.IsBranch) :
    Yields (leaf kind <$> keyword word) Spelled := by
  refine Reads.map (yields_keyword word) ?_
  rintro _ t ⟨rfl, mt⟩
  exact spelled_word hk mt

theorem yields_keywordStatement : Yields keywordStatement Spelled := by
  refine Reads.orElse yields_structDefinition ?_
  refine Reads.orElse yields_abstractDefinition ?_
  refine Reads.orElse yields_primitiveDefinition ?_
  refine Reads.orElse yields_moduleDefinition ?_
  refine Reads.orElse (yields_definition (by decide) yields_signature) ?_
  refine Reads.orElse yields_importStatement ?_
  refine Reads.orElse yields_exportStatement ?_
  refine Reads.orElse (yields_declaration (by decide)) ?_
  refine Reads.orElse (yields_declaration (by decide)) ?_
  refine Reads.orElse (yields_declaration (by decide)) ?_
  refine Reads.orElse yields_returnStatement ?_
  exact Reads.orElse (yields_wordAlone (by decide)) (yields_wordAlone (by decide))

theorem yields_statement : Yields statement Spelled :=
  Reads.orElse yields_keywordStatement (yields_rule Row.assignment)

theorem rules_spelled : RulesMeet Spelled :=
  ⟨yields_paren, yields_primary, yields_typed, yields_unary, yields_ternary, yields_pair,
    yields_whereExpression, yields_arrow, yields_expression, yields_assignmentExpression,
    yields_statement⟩

/-- Every answer in the chart of tokens in order is spelled by the tokens it takes. -/
theorem ofTokens_meets {ts : List Token} (ho : Ordered ts) :
    Chart.Meets Spelled (Chart.ofTokens ts) :=
  rules_spelled.ofTokens ho

end CellBindings
