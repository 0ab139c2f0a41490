import CellBindings.Proofs.SettledRuns
import CellBindings.Proofs.SpelledArguments

/-!
Parsers and what is open. Each parser of the grammar takes a run of tokens that settles, if the
nodes it gives are heard; only comprehensions, which stand inside brackets, may leave blocks open.
-/

namespace CellBindings

open CellBindings.Parser Grammar

variable {α : Type}

def SettlesNode (us : List Token) (node : Node) : Prop := Settles us [node]

abbrev Keeps (p : Parser α) (nodes : α → List Node) : Prop :=
  Reads SettlesNode p fun us a => Settles us (nodes a)

abbrev KeepsNode (p : Parser Node) : Prop := Reads SettlesNode p SettlesNode

abbrev TakesToken (p : Parser Token) (accepts : Token → Prop) : Prop :=
  Reads SettlesNode p fun us t => us = [t] ∧ accepts t

theorem keeps_rule (answer : Row → Answer) [IsKept answer] : KeepsNode (rule answer) :=
  Reads.rule IsKept.mem

theorem keeps_still {accepts : Token → Bool} (h : ∀ t, accepts t = true → t.isStill = true)
    (nodes : Token → List Node) : Keeps (token accepts) nodes := by
  refine (Reads.token accepts).mono ?_
  rintro _ t _ ⟨rfl, accepted⟩
  intro earlier runs
  exact settles_still (h t accepted) earlier ⟨runs.fit, by simp⟩

theorem still_of_kind {t : Token} {kind : Token.Kind} (h : t.kind = kind)
    (quiet : kind.isQuiet = true) : t.isStill = true := by
  subst h
  obtain ⟨kind, text, span, spaced⟩ := t
  cases kind <;> first | rfl | cases quiet

theorem still_of_operator {t : Token} {spelling : Text} (h : t.isOperator spelling = true) :
    t.isStill = true := by
  simp only [Token.isOperator, Bool.and_eq_true, beq_iff_eq] at h
  exact still_of_kind h.1 rfl

theorem still_of_keyword {t : Token} {word : Keyword} (still : word.isStill = true)
    (h : t.isKeyword word = true) : t.isStill = true := by
  simp only [Token.isKeyword, beq_iff_eq] at h
  simpa [Token.isStill, h] using still

theorem still_of_separator {t : Token} (h : isSeparator t = true) : t.isStill = true := by
  simp only [isSeparator, Token.isPunctuation, Bool.or_eq_true, Bool.and_eq_true, beq_iff_eq] at h
  rcases h with h | ⟨h, text⟩
  · exact still_of_kind h rfl
  · simp [Token.isStill, h, text]

theorem keeps_operator (spelling : Text) : Keeps (operator spelling) fun _ => [] :=
  keeps_still (fun _ => still_of_operator) _

theorem keeps_keyword {word : Keyword} (still : word.isStill = true) :
    Keeps (keyword word) fun _ => [] :=
  keeps_still (fun _ => still_of_keyword still) _

theorem keeps_punctuation {c : Char} (still : c = ',' ∨ c = ';') :
    Keeps (punctuation c) fun _ => [] := by
  refine keeps_still ?_ _
  intro t h
  simp only [Token.isPunctuation, Bool.and_eq_true, beq_iff_eq] at h
  rcases still with rfl | rfl <;> simp [Token.isStill, h.1, h.2]

theorem keeps_comma : Keeps comma fun _ => [] := keeps_punctuation (.inl rfl)

theorem keeps_semicolon : Keeps (punctuation ';') fun _ => [] := keeps_punctuation (.inr rfl)

theorem keeps_separator : Keeps separator fun _ => [] :=
  keeps_still (fun _ => still_of_separator) _

theorem keeps_quiet {kind : Token.Kind} (quiet : kind.isQuiet = true) (nodes : Token → List Node) :
    Keeps (Parser.kind kind) nodes :=
  keeps_still (fun _ h => still_of_kind (beq_iff_eq.mp h) quiet) _

theorem takes_bracket (c : Char) : TakesToken (punctuation c) fun t => t.isPunctuation c = true :=
  Reads.token _

theorem takes_tight (c : Char) : TakesToken (tight c) fun t => t.isPunctuation c = true := by
  refine (Reads.token _).mono ?_
  rintro _ t _ ⟨rfl, accepted⟩
  exact ⟨rfl, (Bool.and_eq_true_iff.mp accepted).1⟩

theorem takes_keyword (word : Keyword) :
    TakesToken (keyword word) fun t => t.isKeyword word = true :=
  Reads.token _

theorem takes_kind (kind : Token.Kind) : TakesToken (Parser.kind kind) fun t => t.kind = kind := by
  refine (Reads.token _).mono ?_
  rintro _ t _ ⟨rfl, accepted⟩
  exact ⟨rfl, beq_iff_eq.mp accepted⟩

section Lists

variable {ts : List Token}

theorem settles_pieces {nodes : α → List Node} {items : List α}
    (h : Pieces (fun us a => Settles us (nodes a)) ts items) :
    Settles ts (items.flatMap nodes) := by
  induction h with
  | nil => exact .nil
  | cons piece _ ih => exact piece.append ih

theorem settles_each {items : List Node} (h : Pieces SettlesNode ts items) : Settles ts items := by
  induction h with
  | nil => exact .nil
  | cons piece _ ih => exact Settles.append piece ih

theorem settles_marks {β : Type} {items : List β}
    (h : Pieces (fun us _ => Settles us []) ts items) : Settles ts [] := by
  induction h with
  | nil => exact .nil
  | cons piece _ ih => exact piece.append ih

theorem settles_separated {items : List Node} {between : List Token → Prop}
    (h : SeparatedBy between SettlesNode ts items) (marks : ∀ gap, between gap → Settles gap []) :
    Settles ts items := by
  induction h with
  | one item => exact item
  | more item gap _ ih => exact Settles.append item ((marks _ gap).append ih)

theorem keeps_many {p : Parser α} {nodes : α → List Node} (h : Keeps p nodes) :
    Keeps (many p) fun items => items.flatMap nodes :=
  (Reads.many h).mono fun _ _ _ => settles_pieces

theorem keeps_manyNodes {p : Parser Node} (h : KeepsNode p) : Keeps (many p) fun items => items :=
  (Reads.many h).mono fun _ _ _ => settles_each

theorem keeps_many1 {p : Parser Node} (h : KeepsNode p) : Keeps (many1 p) fun items => items :=
  (Reads.many1 h).mono fun _ _ _ pieces => settles_each pieces.2

theorem keeps_manyMarks {p : Parser Token} (h : Keeps p fun _ => []) :
    Keeps (many p) fun _ => [] :=
  (Reads.many h).mono fun _ _ _ => settles_marks

theorem keeps_option {p : Parser α} {nodes : α → List Node} (h : Keeps p nodes) :
    Keeps (Parser.option p) fun item => item.toList.flatMap nodes :=
  (Reads.option h).mono fun _ _ _ => settles_pieces

theorem keeps_separated1 {β : Type} {p : Parser Node} {separator : Parser β} (h : KeepsNode p)
    (marks : Keeps separator fun _ => []) : Keeps (separated1 p separator) fun items => items := by
  refine (Reads.separated1 h marks).mono ?_
  intro ts items _ separated
  refine settles_separated separated ?_
  rintro gap ⟨_, settles⟩
  exact settles

theorem keeps_separated {β : Type} {p : Parser Node} {separator : Parser β} (h : KeepsNode p)
    (marks : Keeps separator fun _ => []) : Keeps (separated p separator) fun items => items :=
  Reads.orElse (keeps_separated1 h marks) (Reads.pure .nil)

end Lists

theorem keeps_ahead (p : Parser α) : Keeps (ahead p) fun _ => [] := by
  refine (Reads.ahead p).mono ?_
  rintro _ _ _ rfl
  exact .nil

theorem keeps_many1Marks {p : Parser Token} (h : Keeps p fun _ => []) :
    Keeps (many1 p) fun _ => [] :=
  (Reads.many1 h).mono fun _ _ _ pieces => settles_marks pieces.2

theorem keeps_unread (accepts : Token → Bool) :
    KeepsNode (do let ts ← many1 (token accepts); return unread ts) :=
  (Reads.many1 (Reads.token _)).bind fun _ _ _ => Reads.pure (settles_unread _ _)

@[simp] theorem placeBlock_children (body : Node) (offset : Nat) :
    (placeBlock body offset).children = body.children := by
  unfold placeBlock
  split <;> rfl

@[simp] theorem placed_children (kind : Kind) (offset : Nat) (nodes : List Node) :
    (placed kind offset nodes).children = nodes := by
  unfold placed
  split
  · next none => exact (List.isEmpty_iff.mp none).symm
  · rfl

@[simp] theorem wrap_children (kind : Kind) (nodes : List Node) :
    (Node.wrap kind nodes).children = nodes := rfl

@[simp] theorem bracketed_children (kind : Kind) (first last : Token) (nodes : List Node) :
    (bracketed kind first last nodes).children = nodes := rfl

theorem keeps_blockItem : KeepsNode blockItem := by
  refine Reads.orElse ?_ (keeps_unread _)
  refine (keeps_rule Row.statement).bind fun us node hn => ?_
  refine (keeps_ahead _).bind fun vs _ hv => Reads.pure ?_
  exact hn.append (hv.append .nil)

theorem keeps_block : Keeps block Node.children := by
  refine (keeps_manyMarks keeps_separator).bind fun us _ hu => ?_
  refine (keeps_separated keeps_blockItem (keeps_many1Marks keeps_separator)).bind
    fun vs items hi => ?_
  refine (keeps_manyMarks keeps_separator).bind fun ws _ hw => Reads.pure ?_
  simpa using hu.append (hi.append (hw.append .nil))

/-- A body in its place. -/
theorem Settles.body {us : List Token} {body : Node} (h : Settles us body.children)
    (offset : Nat) : Settles us [placeBlock body offset] :=
  h.under (by simp)

theorem keeps_literal {token : Token.Kind} {kind : Kind} (quiet : token.isQuiet = true) :
    KeepsNode (leaf kind <$> Parser.kind token) :=
  Reads.map (keeps_quiet quiet fun t => [leaf kind t]) fun _ _ h => h

theorem keeps_name : KeepsNode name := keeps_literal rfl

theorem keeps_forBinding : KeepsNode forBinding := by
  refine (keeps_rule Row.typed).bind fun us target ht => ?_
  refine (Reads.orElse (keeps_keyword rfl)
    (Reads.orElse (keeps_operator _) (keeps_operator _))).bind fun vs _ hv => ?_
  refine (keeps_rule Row.ternary).bind fun ws iterable hi => Reads.pure ?_
  exact (ht.append (hv.append (hi.append .nil))).under (by simp)

theorem keeps_forBindings : Keeps forBindings fun bindings => bindings :=
  keeps_separated1 keeps_forBinding keeps_comma

abbrev LeaksFrom (p : Parser α) (nodes : α → List Node) : Prop :=
  Reads SettlesNode p fun us a => Leaks us (nodes a)

theorem leaks_forClause : LeaksFrom forClause fun node => [node] := by
  refine (takes_keyword .forKw).bind fun _ t ⟨ht, word⟩ => ?_
  refine keeps_forBindings.bind fun us bindings hb => Reads.pure ?_
  subst ht
  have clause := (leaks_word word (by decide)).append (hb.append .nil).leaks
  exact clause.under (by simp)

theorem leaks_ifClause : LeaksFrom ifClause fun node => [node] := by
  refine (takes_keyword .ifKw).bind fun _ t ⟨ht, word⟩ => ?_
  refine (keeps_rule Row.arrow).bind fun us condition hc => Reads.pure ?_
  subst ht
  have clause := (leaks_word word (by decide)).append (hc.append .nil).leaks
  exact clause.under (by simp)

theorem leaks_each {ts : List Token} {items : List Node}
    (h : Pieces (fun us node => Leaks us [node]) ts items) : Leaks ts items := by
  induction h with
  | nil => exact Settles.nil.leaks
  | cons piece _ ih => exact piece.append ih

theorem leaks_comprehension (kind : Kind) : LeaksFrom (comprehension kind) Node.children := by
  refine (keeps_rule Row.arrow).bind fun us body hb => ?_
  refine leaks_forClause.bind fun vs first hf => ?_
  refine (Reads.many (Reads.orElse leaks_forClause leaks_ifClause)).bind fun ws rest hr =>
    Reads.pure ?_
  simpa using hb.leaks.append (hf.append ((leaks_each hr).append Settles.nil.leaks))

theorem keeps_callItem : KeepsNode callItem := by
  refine Reads.orElse ?_ (keeps_rule Row.arrow)
  refine (keeps_rule Row.typed).bind fun us label hl => ?_
  refine (keeps_operator _).bind fun vs _ hv => ?_
  refine (keeps_rule Row.arrow).bind fun ws value hw => Reads.pure ?_
  exact (hl.append (hv.append (hw.append .nil))).under (by simp)

theorem keeps_optionMark {p : Parser Token} (h : Keeps p fun _ => []) :
    Keeps (Parser.option p) fun _ => [] :=
  (Reads.option h).mono fun _ _ _ => settles_marks

theorem keeps_commaList {item : Parser Node} (h : KeepsNode item) :
    Keeps (commaList item) fun items => items := by
  refine (keeps_separated h keeps_comma).bind fun us items hi => ?_
  refine (keeps_optionMark keeps_comma).bind fun vs _ hv => Reads.pure ?_
  simpa using hi.append (hv.append .nil)

theorem leaks_callArguments : LeaksFrom callArguments Arguments.nodes := by
  refine Reads.orElse ?_ ?_
  · refine (leaks_comprehension _).bind fun us generator hg => Reads.pure ?_
    have whole : Leaks us [generator] := hg.under (by simp)
    simpa [Arguments.nodes] using whole
  · refine (keeps_commaList keeps_callItem).bind fun us positional hp => ?_
    refine (@keeps_option _ _ (fun pair => [keywordArguments pair.1 pair.2]) ?_).bind
      fun vs keywords hk => Reads.pure ?_
    · refine keeps_semicolon.bind fun us semicolon hs => ?_
      refine (keeps_commaList keeps_callItem).bind fun vs items hi => Reads.pure ?_
      exact (hs.append (hi.append .nil)).under (by simp [keywordArguments])
    · have both := (hp.append (hk.append .nil)).leaks
      cases keywords with
      | none => simpa [Arguments.nodes] using both
      | some pair => simpa [Arguments.nodes] using both

theorem leaks_indexArguments : LeaksFrom indexArguments fun nodes => nodes := by
  refine Reads.orElse ?_
    ((keeps_commaList (keeps_rule Row.arrow)).mono fun _ _ _ settles => settles.leaks)
  refine (leaks_comprehension _).bind fun us node hn => Reads.pure ?_
  have whole : Leaks us [node] := hn.under (by simp)
  simpa using whole

theorem keeps_argumentList {opening : Parser Token}
    (h : TakesToken opening fun t => t.isPunctuation '(' = true) :
    KeepsNode (argumentList opening) := by
  refine h.bind fun _ first ⟨hf, opens⟩ => ?_
  refine leaks_callArguments.bind fun us arguments ha => ?_
  refine (takes_bracket ')').bind fun _ last ⟨hl, closes⟩ => Reads.pure ?_
  subst hf hl
  have whole := settles_opening .round opens (ha.before (returns_closing .round closes))
  exact whole.under (by simp [Arguments.toNode, Arguments.nodes])

/-- A list and a block behind it, between a word that opens a block and its `end`. -/
theorem keeps_headed {word : Keyword} {kind list : Kind} {item : Parser Node}
    (opens : word.alwaysOpens = true) (hi : KeepsNode item) :
    KeepsNode (do
      let first ← keyword word
      let head ← placed list first.span.stop <$> separated item comma
      let body ← block
      let last ← keyword .endKw
      return bracketed kind first last [head, placeBlock body head.span.stop]) := by
  refine (takes_keyword word).bind fun _ first ⟨hf, mf⟩ => ?_
  have heads : KeepsNode (placed list first.span.stop <$> separated item comma) :=
    Reads.map (keeps_separated hi keeps_comma) fun _ _ h => h.under (by simp)
  refine heads.bind fun us head hh => ?_
  refine keeps_block.bind fun vs body hb => ?_
  refine (takes_keyword .endKw).bind fun _ last ⟨hl, ml⟩ => Reads.pure ?_
  subst hf hl
  have inner := hh.before ((hb.body head.span.stop).before (returns_end ml))
  exact (settles_word mf opens inner).under (by simp)

theorem keeps_doClause : KeepsNode doClause := keeps_headed rfl (keeps_rule Row.arrow)

end CellBindings
