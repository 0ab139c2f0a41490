import CellBindings.Proofs.SpelledShapes

/-!
Tokens, blocks and arguments. Each parser of the grammar takes a run of tokens and gives what that
run spells; the lemma of a parser follows its steps.
-/

namespace CellBindings

open CellBindings.Parser Grammar

variable {α : Type}

/-- What a parser takes and gives, on charts whose answers are spelled by their tokens. -/
abbrev Yields (p : Parser α) (post : List Token → α → Prop) : Prop := Reads Spelled p post

abbrev YieldsMark (p : Parser Token) : Prop := Yields p fun ts t => ts = [t] ∧ t.IsMark

theorem isMark_of_kind {t : Token} {kind : Token.Kind} (h : t.kind = kind)
    (hk : kind ≠ .identifier ∧ kind ≠ .macroName ∧ kind ≠ .error) : t.IsMark := by
  subst h
  exact hk

theorem isMark_of_operator {t : Token} {spelling : Text} (h : t.isOperator spelling = true) :
    t.IsMark := by
  simp only [Token.isOperator, Bool.and_eq_true, beq_iff_eq] at h
  exact isMark_of_kind h.1 (by decide)

theorem isMark_of_keyword {t : Token} {word : Keyword} (h : t.isKeyword word = true) :
    t.IsMark := by
  simp only [Token.isKeyword, beq_iff_eq] at h
  exact isMark_of_kind h (by simp)

theorem isMark_of_punctuation {t : Token} {c : Char} (h : t.isPunctuation c = true) : t.IsMark := by
  simp only [Token.isPunctuation, Bool.and_eq_true, beq_iff_eq] at h
  exact isMark_of_kind h.1 (by decide)

theorem isMark_of_separator {t : Token} (h : isSeparator t = true) : t.IsMark := by
  simp only [isSeparator, Bool.or_eq_true, beq_iff_eq] at h
  rcases h with h | h
  · exact isMark_of_kind h (by decide)
  · exact isMark_of_punctuation h

theorem yields_mark {accepts : Token → Bool} (h : ∀ t, accepts t = true → t.IsMark) :
    YieldsMark (token accepts) :=
  (Reads.token accepts).mono fun _ t _ ⟨hs, ht⟩ => ⟨hs, h t ht⟩

theorem yields_operator (spelling : Text) : YieldsMark (operator spelling) :=
  yields_mark fun _ => isMark_of_operator

theorem yields_keyword (word : Keyword) : YieldsMark (keyword word) :=
  yields_mark fun _ => isMark_of_keyword

theorem yields_punctuation (c : Char) : YieldsMark (punctuation c) :=
  yields_mark fun _ => isMark_of_punctuation

theorem yields_tight (c : Char) : YieldsMark (tight c) := by
  refine yields_mark fun t ht => ?_
  simp only [Bool.and_eq_true] at ht
  exact isMark_of_punctuation ht.1

theorem yields_separator : YieldsMark separator := yields_mark fun _ => isMark_of_separator

theorem yields_kind {kind : Token.Kind}
    (hk : kind ≠ .identifier ∧ kind ≠ .macroName ∧ kind ≠ .error) : YieldsMark (Parser.kind kind) :=
  yields_mark fun _ ht => isMark_of_kind (by simpa using ht) hk

theorem pieces_tokens {P : Token → Prop} {ts items : List Token}
    (h : Pieces (fun ts t => ts = [t] ∧ P t) ts items) : ts = items ∧ ∀ t ∈ items, P t := by
  induction h with
  | nil => simp
  | cons piece _ ih =>
    obtain ⟨rfl, ht⟩ := piece
    obtain ⟨rfl, hs⟩ := ih
    simpa using ⟨ht, hs⟩

theorem pieces_marks {ts items : List Token}
    (h : Pieces (fun ts t => ts = [t] ∧ t.IsMark) ts items) : ∀ t ∈ ts, t.IsMark := by
  obtain ⟨rfl, hs⟩ := pieces_tokens h
  exact hs

/-- Separators of one mark each join what they separate. -/
theorem joined_of_marks {built : List Token → Node → Prop} {ts : List Token} {nodes : List Node}
    (h : SeparatedBy (fun ts => ∃ t, ts = [t] ∧ t.IsMark) built ts nodes) :
    Joined built ts nodes := by
  refine SeparatedBy.imp ?_ (fun _ _ hb => hb) h
  rintro _ ⟨t, rfl, ht⟩ u hu
  obtain rfl : u = t := by simpa using hu
  exact ht

theorem joined_of_pieces {ts : List Token} {nodes : List Node} (hn : nodes ≠ [])
    (h : Pieces Spelled ts nodes) : Joined Spelled ts nodes := by
  induction h with
  | nil => exact absurd rfl hn
  | @cons us vs node nodes hs rest ih =>
    cases nodes with
    | nil =>
      cases rest
      have hj : Joined Spelled us [node] := .one hs
      simpa using hj
    | cons next nodes => exact .next hs (ih (List.cons_ne_nil _ _))

/-- Tokens that no rule reads are kept in a leaf. -/
theorem yields_unread (accepts : Token → Bool) :
    Yields (do let ts ← many1 (token accepts); return unread ts) Built := by
  refine (Reads.many1 (Reads.token _)).bind fun ts items ⟨hn, pieces⟩ => Reads.pure ?_
  obtain ⟨rfl, _⟩ := pieces_tokens pieces
  simpa using Built.unread hn

theorem yields_blockItem : Yields blockItem Built := by
  refine Reads.orElse ?_ (yields_unread _)
  refine (Reads.rule (by simp [Row.answers])).bind fun us node hs => ?_
  refine (Reads.ahead _).bind fun _ _ he => ?_
  subst he
  exact Reads.pure (by simpa using hs.built)

theorem yields_block : Yields block BlockRun := by
  refine Reads.ordered ?_
  refine (Reads.many yields_separator).bind fun before _ hb => ?_
  refine (Reads.separated yields_blockItem (Reads.many1 yields_separator)).bind
    fun run items h => ?_
  refine (Reads.many yields_separator).bind fun behind _ ha => Reads.pure fun ho => ?_
  have marks_before := pieces_marks hb
  have marks_behind := pieces_marks ha
  rw [List.append_nil] at ho ⊢
  rcases h with ⟨rfl, rfl⟩ | h
  · refine .empty fun t ht => ?_
    rcases List.mem_append.mp ht with ht | ht
    · exact marks_before t ht
    · exact marks_behind t ht
  · have hj : Joined Built run items := by
      refine SeparatedBy.imp ?_ (fun _ _ hb => hb) h
      rintro ts ⟨_, _, pieces⟩
      exact pieces_marks pieces
    exact .items marks_before (built_wrap (by decide) hj ho.right.left) hj.items_ne_nil marks_behind

theorem leafOf_mark {kind : Kind} {t : Token} (ht : t.IsMark) (leaf : kind.isLeaf = true)
    (single : kind ≠ .symbol) (hi : kind ≠ .identifier) (hm : kind ≠ .macroIdentifier) :
    LeafOf kind t :=
  ⟨leaf, single, ⟨fun h => absurd h hi, fun h => absurd h ht.1⟩,
    ⟨fun h => absurd h hm, fun h => absurd h ht.2.1⟩, ht.2.2⟩

theorem leafOf_identifier {t : Token} (h : t.kind = .identifier) : LeafOf .identifier t :=
  ⟨rfl, by decide, by simp [h], by simp [h], by simp [h]⟩

theorem leafOf_macroName {t : Token} (h : t.kind = .macroName) : LeafOf .macroIdentifier t :=
  ⟨rfl, by decide, by simp [h], by simp [h], by simp [h]⟩

theorem yields_name : Yields name Spelled := by
  refine Reads.map (Reads.token _) ?_
  rintro _ t ⟨rfl, ht⟩
  exact spelled_leaf (leafOf_identifier (by simpa using ht))

theorem yields_comma : YieldsMark comma := yields_punctuation ','

class IsKept (answer : Row → Answer) : Prop where
  mem : ∀ row, answer row ∈ row.answers

instance : IsKept Row.paren := ⟨fun _ => by simp [Row.answers]⟩
instance : IsKept Row.primary := ⟨fun _ => by simp [Row.answers]⟩
instance : IsKept Row.typed := ⟨fun _ => by simp [Row.answers]⟩
instance : IsKept Row.unary := ⟨fun _ => by simp [Row.answers]⟩
instance : IsKept Row.ternary := ⟨fun _ => by simp [Row.answers]⟩
instance : IsKept Row.pair := ⟨fun _ => by simp [Row.answers]⟩
instance : IsKept Row.whereExpression := ⟨fun _ => by simp [Row.answers]⟩
instance : IsKept Row.arrow := ⟨fun _ => by simp [Row.answers]⟩
instance : IsKept Row.expression := ⟨fun _ => by simp [Row.answers]⟩
instance : IsKept Row.assignment := ⟨fun _ => by simp [Row.answers]⟩
instance : IsKept Row.statement := ⟨fun _ => by simp [Row.answers]⟩

theorem yields_rule (answer : Row → Answer) [IsKept answer] : Yields (rule answer) Spelled :=
  Reads.rule IsKept.mem

def MarkThen (ts : List Token) (node : Node) : Prop :=
  ∃ t us, ts = t :: us ∧ t.IsMark ∧ Spelled us node

theorem yields_markThen {sign : Parser Token} {p : Parser Node} (hs : YieldsMark sign)
    (hp : Yields p Spelled) :
    Yields (do let _ ← sign; p) MarkThen := by
  refine hs.bind fun _ t ⟨ht, mt⟩ => ?_
  subst ht
  exact hp.mono fun us node _ hn => ⟨t, us, rfl, mt, hn⟩

theorem yields_forBinding : Yields forBinding Spelled := by
  refine Reads.ordered ?_
  refine (yields_rule Row.typed).bind fun us target ht => ?_
  refine (Reads.orElse (yields_keyword .inKw)
    (Reads.orElse (yields_operator ['=']) (yields_operator ['∈']))).bind fun _ sign ⟨hs, mark⟩ => ?_
  refine (yields_rule Row.ternary).bind fun vs iterable hi => Reads.pure fun ho => ?_
  subst hs
  rw [List.append_nil] at ho ⊢
  exact spelled_wrap (by decide) (.past ht mark (.one hi)) ho

theorem yields_forBindings : Yields forBindings (Joined Spelled) :=
  (Reads.separated1 yields_forBinding yields_comma).mono fun _ _ _ h => joined_of_marks h

theorem yields_forClause : Yields forClause Spelled := by
  refine Reads.ordered ?_
  refine (yields_keyword .forKw).bind fun _ word ⟨hw, mark⟩ => ?_
  refine yields_forBindings.bind fun ts bindings hb => Reads.pure fun ho => ?_
  subst hw
  rw [List.append_nil] at ho ⊢
  exact spelled_lead (by decide) mark hb ho

theorem yields_ifClause : Yields ifClause Spelled := by
  refine Reads.ordered ?_
  refine (yields_keyword .ifKw).bind fun _ word ⟨hw, mark⟩ => ?_
  refine (yields_rule Row.arrow).bind fun ts condition hc => Reads.pure fun ho => ?_
  subst hw
  rw [List.append_nil] at ho ⊢
  exact spelled_lead_one (by decide) mark hc ho

/-- A body and the clauses behind it, each right behind the one before. -/
theorem yields_clauses (kind : Kind) :
    Yields (comprehension kind) fun ts node =>
      node = .wrap kind node.children ∧ Joined Spelled ts node.children := by
  refine (yields_rule Row.arrow).bind fun us body hb => ?_
  refine yields_forClause.bind fun vs first hf => ?_
  refine (Reads.many (Reads.orElse yields_forClause yields_ifClause)).bind fun ws rest hr =>
    Reads.pure ⟨rfl, ?_⟩
  rw [List.append_nil]
  exact .next hb (joined_of_pieces (List.cons_ne_nil _ _) (.cons hf hr))

theorem yields_comprehension {kind : Kind} (hk : kind.IsBranch) :
    Yields (comprehension kind) Spelled := by
  refine (yields_clauses kind).mono fun ts node ho ⟨hn, hj⟩ => ?_
  rw [hn]
  exact spelled_wrap hk hj ho

theorem yields_callItem : Yields callItem Spelled := by
  refine Reads.orElse (Reads.ordered ?_) (yields_rule Row.arrow)
  refine (yields_rule Row.typed).bind fun us label hl => ?_
  refine (yields_operator ['=']).bind fun _ sign ⟨hs, mark⟩ => ?_
  refine (yields_rule Row.arrow).bind fun vs value hv => Reads.pure fun ho => ?_
  subst hs
  rw [List.append_nil] at ho ⊢
  exact spelled_wrap (by decide) (.past hl mark (.one hv)) ho

def Listed (ts : List Token) (nodes : List Node) : Prop :=
  ∃ us tail, ts = us ++ tail ∧ (∀ t ∈ tail, t.IsMark) ∧
    ((us = [] ∧ nodes = []) ∨ Joined Spelled us nodes)

theorem Listed.strewn {ts : List Token} {nodes : List Node} (h : Listed ts nodes) :
    Strewn ts nodes := by
  obtain ⟨us, tail, rfl, marks, ⟨rfl, rfl⟩ | hj⟩ := h
  · exact fun _ => .of_marks marks
  · intro place
    have behind : Forest Token.IsMark Built (stopAfter place us) tail [] := .of_marks marks
    simpa using (hj.built.strewn place).append behind

theorem yields_commaList {item : Parser Node} (hi : Yields item Spelled) :
    Yields (commaList item) Listed := by
  refine (Reads.separated hi yields_comma).bind fun us nodes h => ?_
  refine (Reads.option yields_comma).bind fun tail trailing ht => Reads.pure ⟨us, tail, ?_⟩
  refine ⟨by simp, pieces_marks ht, ?_⟩
  exact h.imp id joined_of_marks

theorem listed_of_separated {us vs trailing : List Token} {nodes : List Node}
    (h : SeparatedBy (fun ts => ∃ t, ts = [t] ∧ t.IsMark) Spelled us nodes)
    (ht : Pieces (fun ts t => ts = [t] ∧ t.IsMark) vs trailing) : Listed (us ++ vs) nodes :=
  ⟨us, vs, rfl, pieces_marks ht, .inr (joined_of_marks h)⟩

/-- Arguments behind a semicolon: a comma after the last is not part of them. -/
theorem keywordArguments_strewn {semicolon : Token} {ts : List Token} {nodes : List Node}
    (mark : semicolon.IsMark) (h : Listed ts nodes) (ho : Ordered (semicolon :: ts)) :
    Strewn (semicolon :: ts) [keywordArguments semicolon nodes] := by
  obtain ⟨us, tail, rfl, marks, hn⟩ := h
  have hs : Spelled (semicolon :: us) (keywordArguments semicolon nodes) := by
    rcases hn with ⟨rfl, rfl⟩ | hj
    · exact spelled_word (by decide) mark
    · exact spelled_lead (by decide) mark hj (@Ordered.left (semicolon :: us) tail ho)
  intro place
  exact .node hs.built (.of_marks marks)

def Grammar.Arguments.nodes (arguments : Arguments) : List Node :=
  arguments.positional ++
    (arguments.keywords.map fun (semicolon, nodes) => keywordArguments semicolon nodes).toList

theorem yields_callArguments :
    Yields callArguments fun ts arguments => Strewn ts arguments.nodes := by
  refine Reads.orElse ?_ (Reads.ordered ?_)
  · refine (yields_comprehension (by decide)).bind fun us node hs => Reads.pure ?_
    rw [List.append_nil]
    exact hs.strewn
  · refine (yields_commaList yields_callItem).bind fun us positional hp => ?_
    refine (Reads.option (P := fun ts pair => ∃ vs, ts = pair.1 :: vs ∧ pair.1.IsMark ∧
      Listed vs pair.2) ?_).bind fun vs keywords hk => Reads.pure fun ho => ?_
    · refine (yields_punctuation ';').bind fun _ semicolon ⟨hs, mark⟩ => ?_
      refine (yields_commaList yields_callItem).bind fun vs items hi => Reads.pure ?_
      subst hs
      exact ⟨vs, by simp, mark, hi⟩
    · rw [List.append_nil] at ho ⊢
      intro place
      refine (hp.strewn place).append ?_
      rcases hk.option with ⟨rfl, rfl⟩ | ⟨_, rfl, ws, rfl, mark, hl⟩
      · exact .nil
      · exact keywordArguments_strewn mark hl ho.right _

theorem yields_indexArguments : Yields indexArguments Strewn := by
  refine Reads.orElse ?_ ((yields_commaList (yields_rule Row.arrow)).mono fun _ _ _ h => h.strewn)
  refine (yields_comprehension (by decide)).bind fun us node hs => Reads.pure ?_
  rw [List.append_nil]
  exact hs.strewn

theorem yields_argumentList {first : Parser Token} (hf : YieldsMark first) :
    Yields (argumentList first) Spelled := by
  refine hf.bind fun _ opening ⟨ho, mo⟩ => ?_
  refine yields_callArguments.bind fun ts arguments ha => ?_
  refine (yields_punctuation ')').bind fun _ closing ⟨hc, mc⟩ => Reads.pure ?_
  subst ho hc
  exact spelled_bracketed (by decide) mo mc (ha _)

/-- A list with a place of its own and a block behind it, between a word and its `end`. -/
theorem yields_headed {word : Keyword} {kind list : Kind} {item : Parser Node} (hk : kind.IsBranch)
    (hl : list.IsBranch ∧ list.MayBeEmpty) (hi : Yields item Spelled) :
    Yields (do
      let first ← keyword word
      let head ← placed list first.span.stop <$> separated item comma
      let body ← block
      let last ← keyword .endKw
      return bracketed kind first last [head, placeBlock body head.span.stop]) Spelled := by
  refine Reads.ordered ?_
  refine (yields_keyword word).bind fun _ first ⟨hf, mf⟩ => ?_
  refine (Reads.map (R := fun ts node => Ordered ts →
      Forest Token.IsMark Built first.span.stop ts [node] ∧
        node.span.stop = stopAfter first.span.stop ts)
    (Reads.separated hi yields_comma) ?_).bind fun us head hh => ?_
  · intro ts nodes h ho
    exact placed_forest hl.1 hl.2 ho (h.imp id joined_of_marks) _
  · refine yields_block.bind fun vs body hb => ?_
    refine (yields_keyword .endKw).bind fun _ last ⟨he, me⟩ => Reads.pure fun ho => ?_
    subst hf he
    rw [List.append_nil] at ho ⊢
    obtain ⟨front, stop⟩ := hh ho.right.left
    have inner := front.append (hb.forest _)
    rw [← stop] at inner
    have hs := spelled_bracketed hk mf me inner
    rw [List.append_assoc] at hs
    exact hs

theorem yields_doClause : Yields doClause Spelled :=
  yields_headed (by decide) (by decide) (yields_rule Row.arrow)

end CellBindings
