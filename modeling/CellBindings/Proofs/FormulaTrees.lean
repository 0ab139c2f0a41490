import CellBindings.Proofs.CarriedBlocks
import CellBindings.Proofs.WordCharts

/-!
The tree of a formula is read from its text. Each strength has its parser. A formula is read by the
parser of its own strength if nothing follows that the parser would go on with, and then by all
looser ones. Where chains lean to the left, what has been read of a chain goes on with the operands
that follow, so the parser of a level is followed over the whole chain at once.
-/

namespace CellBindings

open CellBindings.Parser Grammar

namespace Strength

def parser : Strength → Parser Node
  | .pair => rule Row.pair
  | .chain level => Grammar.chain (Level.all.dropWhile (· ≠ level))
  | .unary => rule Row.unary
  | .power => Grammar.power
  | .atom => rule Row.typed

def accepts : Strength → Token → Bool
  | .pair, t => t.isOperator ['=', '>']
  | .chain level, t => level.accepts t
  | .power, t => t.isOperator ['^'] || t.isOperator ['.', '^']
  | .unary, _ | .atom, _ => false

/-- Each parser goes on with the operators of its own strength and with no others. -/
theorem accepts_sign {own : Strength} {op : Word} (known : op ∈ own.signs) (strength : Strength)
    (o : Nat) : strength.accepts (op.token o) = decide (own = strength) := by
  have table : (all.all fun own => own.signs.all fun op => all.all fun strength =>
      strength.accepts (op.token 0) == decide (own = strength)) = true := by
    decide +kernel
  simp only [List.all_eq_true, beq_iff_eq] at table
  rw [← table own (mem_all own) op known strength (mem_all strength)]
  cases strength with
  | chain level => cases level <;> rfl
  | pair | unary | power | atom => rfl

theorem accepts_closing (strength : Strength) (o : Nat) :
    strength.accepts (Word.closing.token o) = false := by
  cases strength with
  | chain level => cases level <;> rfl
  | pair | unary | power | atom => rfl

theorem usual_sign {strength : Strength} {op : Word} (known : op ∈ strength.signs) :
    op.Usual ∧ op.kind ≠ .identifier := by
  have spelled {level : Level} {text : Text} (mem : text ∈ level.spellings) :
      text ∈ Formula.operators := by
    have : level ∈ Level.all := by cases level <;> decide
    simp only [Formula.operators, List.mem_append, List.mem_cons, List.mem_flatMap]
    exact .inr (.inr (.inr (.inr ⟨level, this, mem⟩)))
  cases strength with
  | pair =>
    rw [List.mem_singleton.mp known]
    exact ⟨.sign (by decide), by decide⟩
  | chain level =>
    rcases List.mem_append.mp known with mem | mem
    · obtain ⟨text, listed, rfl⟩ := List.mem_map.mp mem
      exact ⟨.sign (spelled listed), by simp [Word.sign]⟩
    · split at mem
      · rcases List.mem_pair.mp mem with rfl | rfl
        · exact ⟨.isIn, by decide⟩
        · exact ⟨.isA, by decide⟩
      · cases mem
  | power =>
    rcases List.mem_pair.mp known with rfl | rfl
    · exact ⟨.sign (by decide), by decide⟩
    · exact ⟨.sign (by decide), by decide⟩
  | unary | atom => cases known

end Strength

/-- Behind a formula of this strength, these words do not go on with it: there is nothing, a closing
parenthesis, or an operator that is looser. -/
def Breaks (strength : Strength) (words : List Word) : Prop :=
  ∀ word ∈ words.head?,
    word = .closing ∨ ∃ looser : Strength, looser.rank < strength.rank ∧ word ∈ looser.signs

namespace Breaks

variable {strength tighter : Strength} {words : List Word} {op : Word}

theorem tighten (h : Breaks strength words) (le : strength.rank ≤ tighter.rank) :
    Breaks tighter words := by
  intro word mem
  rcases h word mem with closing | ⟨looser, less, known⟩
  · exact .inl closing
  · exact .inr ⟨looser, by omega, known⟩

theorem of_sign (known : op ∈ strength.signs) (less : strength.rank < tighter.rank) :
    Breaks tighter (op :: words) := by
  rintro word ⟨⟩
  exact .inr ⟨strength, less, known⟩

theorem of_closing (strength : Strength) (words : List Word) :
    Breaks strength (.closing :: words) := by
  rintro word ⟨⟩
  exact .inl rfl

/-- No operator has the strength of those that stand before an operand. -/
theorem exponent (h : Breaks .power words) : Breaks .unary words := by
  intro word mem
  rcases h word mem with closing | ⟨looser, less, known⟩
  · exact .inl closing
  · refine .inr ⟨looser, ?_, known⟩
    have other : looser.rank ≠ Strength.unary.rank := by
      intro same
      rw [Strength.rank_injective same] at known
      cases known
    have : Strength.power.rank = Strength.unary.rank + 1 := by decide
    omega

/-- The parser does not go on. -/
theorem refused (h : Breaks strength words) (o : Nat) :
    token strength.accepts (Word.chart o words) = none := by
  cases words with
  | nil => rfl
  | cons word words =>
    refine token_eq_none.mpr fun row mem => ?_
    cases mem
    change strength.accepts (word.token o) = false
    rcases h word rfl with rfl | ⟨looser, less, known⟩
    · exact strength.accepts_closing o
    · rw [Strength.accepts_sign known, decide_eq_false_iff_not]
      rintro rfl
      omega

end Breaks

theorem range_sign {op : Text} (known : op ∈ Level.range.spellings) :
    Word.sign op ∈ (Strength.chain .range).signs :=
  List.mem_append_left _ (List.mem_map_of_mem known)

section Words

open List (forall_mem_cons forall_mem_append forall_mem_singleton)

mutual

theorem Formula.usual_words (e : Formula) (levelled : e.Levelled) :
    ∀ word ∈ e.words, word.Usual := by
  match e with
  | .name text => exact forall_mem_singleton.mpr (.name levelled.1 levelled.2)
  | .enclosed inner =>
    have inside := inner.usual_words levelled
    exact forall_mem_cons.mpr ⟨.opening, forall_mem_append.mpr ⟨inside, by simpa using .closing⟩⟩
  | .prefixed op operand =>
    obtain ⟨known, -, levelled⟩ := levelled
    have inside := operand.usual_words levelled
    exact forall_mem_cons.mpr ⟨.sign (List.mem_append_left _ known), inside⟩
  | .binary strength left op right =>
    obtain ⟨-, known, ⟨-, first⟩, -, second⟩ := levelled
    have before := left.usual_words first
    have after := right.usual_words second
    exact forall_mem_append.mpr ⟨before, forall_mem_cons.mpr ⟨(Strength.usual_sign known).1, after⟩⟩
  | .range first rest =>
    obtain ⟨-, levelled, more⟩ := levelled
    exact forall_mem_append.mpr ⟨first.usual_words levelled, rest.usual_words more⟩

theorem Bounds.usual_words (bounds : Bounds) (levelled : bounds.Levelled) :
    ∀ word ∈ bounds.words, word.Usual := by
  match bounds with
  | .last op bound =>
    obtain ⟨known, -, levelled⟩ := levelled
    have sign := (Strength.usual_sign (range_sign known)).1
    exact forall_mem_cons.mpr ⟨sign, bound.usual_words levelled⟩
  | .more op bound rest =>
    obtain ⟨known, ⟨-, levelled⟩, more⟩ := levelled
    have sign := (Strength.usual_sign (range_sign known)).1
    exact forall_mem_cons.mpr
      ⟨sign, forall_mem_append.mpr ⟨bound.usual_words levelled, rest.usual_words more⟩⟩

end

theorem Formula.usual_append {e : Formula} {rest : List Word} (levelled : e.Levelled)
    (usual : ∀ word ∈ rest, word.Usual) : ∀ word ∈ e.words ++ rest, word.Usual :=
  forall_mem_append.mpr ⟨e.usual_words levelled, usual⟩

theorem apart_cons {word : Word} {words : List Word} (other : word.kind ≠ .identifier)
    (apart : words.IsChain Word.Apart) : (word :: words).IsChain Word.Apart := by
  cases words with
  | nil => exact .singleton word
  | cons next words => exact .cons_cons (fun same => absurd same other) apart

mutual

/-- No two names stand side by side, neither in a formula nor at its end if no name follows. -/
theorem Formula.apart_words (e : Formula) (levelled : e.Levelled) {rest : List Word}
    (follow : ∀ word ∈ rest.head?, word.kind ≠ .identifier) (apart : rest.IsChain Word.Apart) :
    (e.words ++ rest).IsChain Word.Apart := by
  match e with
  | .name text =>
    cases rest with
    | nil => exact .singleton _
    | cons next rest => exact .cons_cons (fun _ => follow next rfl) apart
  | .enclosed inner =>
    have closed : (.closing :: rest).IsChain Word.Apart := apart_cons (by decide) apart
    have inside := inner.apart_words levelled (by simp [Word.closing]) closed
    rw [Formula.words, List.cons_append, List.append_assoc]
    exact apart_cons (by decide) inside
  | .prefixed op operand =>
    obtain ⟨-, -, levelled⟩ := levelled
    exact apart_cons Token.Kind.noConfusion (operand.apart_words levelled follow apart)
  | .binary strength left op right =>
    obtain ⟨-, known, ⟨-, first⟩, -, second⟩ := levelled
    have other := (Strength.usual_sign known).2
    have after := apart_cons other (right.apart_words second follow apart)
    rw [Formula.words, List.append_assoc]
    exact left.apart_words first (by simpa using other) after
  | .range first rest =>
    obtain ⟨-, levelled, more⟩ := levelled
    obtain ⟨after, head⟩ := rest.apart_words more follow apart
    rw [Formula.words, List.append_assoc]
    exact first.apart_words levelled head after

theorem Bounds.apart_words (bounds : Bounds) (levelled : bounds.Levelled) {rest : List Word}
    (follow : ∀ word ∈ rest.head?, word.kind ≠ .identifier) (apart : rest.IsChain Word.Apart) :
    (bounds.words ++ rest).IsChain Word.Apart ∧
      ∀ word ∈ (bounds.words ++ rest).head?, word.kind ≠ .identifier := by
  match bounds with
  | .last op bound =>
    obtain ⟨-, -, levelled⟩ := levelled
    have inside := bound.apart_words levelled follow apart
    exact ⟨apart_cons Token.Kind.noConfusion inside, by simp [Bounds.words, Word.sign]⟩
  | .more op bound more =>
    obtain ⟨-, ⟨-, levelled⟩, later⟩ := levelled
    obtain ⟨after, head⟩ := more.apart_words later follow apart
    have inside := bound.apart_words levelled head after
    rw [Bounds.words, List.cons_append, List.append_assoc]
    exact ⟨apart_cons Token.Kind.noConfusion inside, by simp [Word.sign]⟩

end

end Words

def Formula.ReadAt (e : Formula) (strength : Strength) : Prop :=
  ∀ o rest, (∀ word ∈ rest, word.Usual) → Breaks strength rest →
    strength.parser (Word.chart o (e.words ++ rest)) =
      some (e.nodeAt o, Word.chart (o + e.size + 1) rest)

def Strength.operand (strength : Strength) : Parser (Token × Node) := do
  let op ← token strength.accepts
  let right ← strength.right.parser
  return (op, right)

def Formula.Continues (e : Formula) (level : Level) : Prop :=
  ∀ o rest items last, (∀ word ∈ rest, word.Usual) → Breaks (Strength.chain level).next rest →
    Repeats (Strength.chain level).operand (Word.chart (o + e.size + 1) rest) items last →
      (Strength.chain level).parser (Word.chart o (e.words ++ rest)) =
        some (level.combine (e.nodeAt o) items, last)

theorem parser_chain (level : Level) :
    (Strength.chain level).parser = do
      let first ← (Strength.chain level).next.parser
      let rest ← many (Strength.chain level).operand
      return level.combine first rest := by
  cases level <;> rfl

theorem pair_with_operand :
    Grammar.pair = do
      let left ← rule Row.ternary
      let right ← option Strength.pair.operand
      return foldBinary left right.toList :=
  rfl

theorem parser_power :
    Strength.power.parser = do
      let base ← Strength.atom.parser
      let raised ← option Strength.power.operand
      return foldBinary base raised.toList := by
  have operators : (operator ['^'] <|> operator ['.', '^']) = token Strength.power.accepts := by
    funext chart
    rw [orElse_apply]
    cases chart with
    | nil => rfl
    | cons row chart =>
      cases plain : row.token.isOperator ['^'] <;> cases dots : row.token.isOperator ['.', '^'] <;>
        simp [operator, token, Strength.accepts, plain, dots]
  simp only [Strength.parser, Grammar.power, Strength.operand, operators, Strength.right]

theorem Breaks.operand_fails {strength : Strength} {words : List Word} (h : Breaks strength words)
    (o : Nat) : strength.operand (Word.chart o words) = none :=
  bind_of_none (h.refused o)

theorem Formula.ReadAt.operand {e : Formula} {strength : Strength} {op : Word} {rest : List Word}
    (reads : e.ReadAt strength.right) (known : op ∈ strength.signs)
    (usual : ∀ word ∈ rest, word.Usual) (breaks : Breaks strength.right rest) (o : Nat) :
    strength.operand (Word.chart o (op :: (e.words ++ rest))) =
      some ((op.token o, e.nodeAt (o + Text.byteSize op.text + 1)),
        Word.chart (o + Text.byteSize op.text + 1 + e.size + 1) rest) := by
  have accepted : strength.accepts (op.token o) = true := by
    rw [Strength.accepts_sign known]
    exact decide_eq_true rfl
  have sign : token strength.accepts (Word.chart o (op :: (e.words ++ rest))) =
      some (op.token o, Word.chart (o + Text.byteSize op.text + 1) (e.words ++ rest)) :=
    if_pos accepted
  exact (bind_of_some sign).trans (bind_of_some (reads _ rest usual breaks))

theorem combine_nil (level : Level) (first : Node) : level.combine first [] = first := by
  simp [Level.combine, foldBinary]

namespace Formula

variable {e : Formula} {level : Level}

theorem ReadAt.continues (reads : e.ReadAt (Strength.chain level).next) : e.Continues level := by
  intro o rest items last usual breaks repeats
  rw [parser_chain]
  exact (bind_of_some (reads o rest usual breaks)).trans (bind_of_some repeats.many)

theorem Continues.readAt (continues : e.Continues level) : e.ReadAt (.chain level) := by
  intro o rest usual breaks
  have tighter : (Strength.chain level).rank ≤ (Strength.chain level).next.rank := by
    rw [Strength.rank_next Strength.noConfusion]
    exact Nat.le_succ _
  have whole := continues o rest [] _ usual (breaks.tighten tighter)
    (.stop (breaks.operand_fails _))
  rwa [combine_nil] at whole

variable {strength own : Strength}

/-- What the next tighter parser reads is read by a parser too, unless an operator of its own
follows. -/
theorem ReadAt.of_next (reads : e.ReadAt strength.next) (levelled : e.Levelled)
    (tight : strength = .unary → e.AtLeast .power) : e.ReadAt strength := by
  cases strength with
  | chain level => exact reads.continues.readAt
  | atom => exact reads
  | pair =>
    intro o rest usual breaks
    have usual' := usual_append levelled usual
    have found := ternary_of_chain usual' usual (reads o rest usual (breaks.tighten (by decide)))
    rw [Strength.parser, (Word.rules_run usual' o).pair, pair_with_operand]
    exact (bind_of_some found).trans (bind_of_some (option_of_none (breaks.operand_fails _)))
  | unary =>
    intro o rest usual breaks
    have head := e.head_of_tight levelled (tight rfl)
    obtain ⟨tail, shape⟩ := e.words_eq
    refine unary_of_power (usual_append levelled usual) ?_
      (reads o rest usual (breaks.tighten (by decide)))
    rw [shape]
    rintro word ⟨⟩
    exact head
  | power =>
    intro o rest usual breaks
    have found := reads o rest usual (breaks.tighten (by decide))
    rw [parser_power]
    exact (bind_of_some found).trans (bind_of_some (option_of_none (breaks.operand_fails _)))

theorem ReadAt.loosen (reads : e.ReadAt own) (levelled : e.Levelled) (atLeast : e.AtLeast own)
    (looser : strength.rank ≤ own.rank) : e.ReadAt strength := by
  induction gap : own.rank - strength.rank generalizing strength with
  | zero =>
    rwa [Strength.rank_injective (show strength.rank = own.rank by omega)]
  | succ n ih =>
    have other : strength ≠ .atom := by
      rintro rfl
      have := own.rank_le_atom
      omega
    have step := Strength.rank_next other
    refine ReadAt.of_next (ih (by omega) (by omega)) levelled ?_
    rintro rfl
    have : Strength.power.rank = Strength.unary.rank + 1 := by decide
    have : own.rank ≤ e.strength.rank := atLeast
    unfold AtLeast
    omega

section Parts

variable {left right inner operand first : Formula} {op : Word}

theorem readAt_name {text : Text} (levelled : (Formula.name text).Levelled) :
    (Formula.name text).ReadAt .atom := by
  intro o rest usual _
  have usual' := usual_append levelled usual
  rw [size_name]
  exact typed_of_atom usual' usual (atom_name usual' rfl)

theorem readAt_enclosed (levelled : inner.Levelled) (reads : inner.ReadAt .pair) :
    (Formula.enclosed inner).ReadAt .atom := by
  intro o rest usual _
  have usual' := @usual_append (.enclosed inner) rest levelled usual
  have shape : (Formula.enclosed inner).words ++ rest =
      .opening :: (inner.words ++ .closing :: rest) := by
    rw [words, List.cons_append, List.append_assoc]
    rfl
  have closed : ∀ word ∈ .closing :: rest, word.Usual := List.forall_mem_cons.mpr ⟨.closing, usual⟩
  have inside := usual_append levelled closed
  have head : ∀ word ∈ (inner.words ++ .closing :: rest).head?, word ≠ .closing := by
    obtain ⟨tail, same⟩ := inner.words_eq
    rw [same]
    rintro word ⟨⟩
    exact inner.head_ne_closing
  have found := arrow_of_pair inside closed (reads (o + 2) _ closed (Breaks.of_closing _ _))
  have whole := atom_opening usual' shape (paren_of_arrow usual' shape head usual found)
  have place : o + 2 + inner.size + 1 + 1 = o + (Formula.enclosed inner).size := by
    rw [size_enclosed]
    omega
  rw [nodeAt, ← place]
  exact typed_of_atom usual' usual whole

theorem readAt_prefixed {op : Text} (levelled : (Formula.prefixed op operand).Levelled)
    (reads : operand.ReadAt .unary) : (Formula.prefixed op operand).ReadAt .unary := by
  intro o rest usual breaks
  have usual' := usual_append levelled usual
  have found := reads (o + Text.byteSize op + 1) rest usual breaks
  have place : o + Text.byteSize op + 1 + operand.size + 1 =
      o + (Formula.prefixed op operand).size + 1 := by
    rw [size_prefixed]
    omega
  rw [← wrap_prefixed, ← place]
  exact unary_prefixed usual' levelled.1 rfl found

/-- Where a binary formula is written, its operator follows the left operand, and the right operand
the operator. -/
theorem words_binary (rest : List Word) :
    (Formula.binary strength left op right).words ++ rest =
      left.words ++ op :: (right.words ++ rest) := by
  rw [words, List.append_assoc, List.cons_append]

theorem place_binary (o : Nat) :
    o + left.size + 1 + Text.byteSize op.text + 1 + right.size + 1 =
      o + (Formula.binary strength left op right).size + 1 := by
  rw [size_binary]
  omega

theorem readAt_pair (levelled : (Formula.binary .pair left op right).Levelled)
    (first : left.ReadAt (.chain .disjunction)) (second : right.ReadAt .pair) :
    (Formula.binary .pair left op right).ReadAt .pair := by
  intro o rest usual breaks
  have whole := usual_append levelled usual
  rw [words_binary] at whole ⊢
  obtain ⟨-, known, -⟩ := levelled
  have behind := (List.forall_mem_append.mp whole).2
  have found := ternary_of_chain whole behind (first o _ behind (.of_sign known (by decide)))
  have operand := @ReadAt.operand _ .pair _ _ second known usual breaks (o + left.size + 1)
  rw [Strength.parser, (Word.rules_run whole o).pair, pair_with_operand, ← place_binary,
    ← wrap_binary]
  exact (bind_of_some found).trans (bind_of_some (option_of_some operand))

theorem readAt_power (levelled : (Formula.binary .power left op right).Levelled)
    (first : left.ReadAt .atom) (second : right.ReadAt .unary) :
    (Formula.binary .power left op right).ReadAt .power := by
  intro o rest usual breaks
  have whole := usual_append levelled usual
  rw [words_binary] at whole ⊢
  obtain ⟨-, known, -⟩ := levelled
  have behind := (List.forall_mem_append.mp whole).2
  have found := first o _ behind (.of_sign known (by decide))
  have operand :=
    @ReadAt.operand _ .power _ _ second known usual breaks.exponent (o + left.size + 1)
  rw [parser_power, ← place_binary, ← wrap_binary]
  exact (bind_of_some found).trans (bind_of_some (option_of_some operand))

theorem continues_binary (levelled : (Formula.binary (.chain level) left op right).Levelled)
    (first : left.Continues level) (second : right.ReadAt (Strength.chain level).next) :
    (Formula.binary (.chain level) left op right).Continues level := by
  intro o rest items last usual breaks repeats
  have whole := usual_append levelled usual
  rw [words_binary] at whole ⊢
  obtain ⟨other, known, -⟩ := levelled
  have behind := (List.forall_mem_append.mp whole).2
  have tighter := @Strength.rank_next (.chain level) Strength.noConfusion
  have operand := @ReadAt.operand _ (.chain level) _ _ second known usual breaks (o + left.size + 1)
  rw [← place_binary] at repeats
  have longer := first o _ _ last behind (.of_sign known (by omega))
    (.more operand (by simp only [Word.length_chart, List.length_cons, List.length_append]; omega)
      repeats)
  rw [longer, ← wrap_binary]
  have chains : level ≠ .range := fun same => other (congrArg Strength.chain same)
  simp [Level.combine, chains, foldBinary, Grammar.binary, leaf, Word.token]

end Parts

end Formula

def Bounds.Read (bounds : Bounds) : Prop :=
  ∀ o rest, (∀ word ∈ rest, word.Usual) → Breaks (.chain .range) rest →
    ∃ items, items ≠ [] ∧ items.map Prod.snd = bounds.nodesAt o ∧
      Repeats (Strength.chain .range).operand (Word.chart o (bounds.words ++ rest)) items
        (Word.chart (o + Word.reach bounds.words) rest)

namespace Bounds

variable {op : Text} {bound : Formula} {more : Bounds}

/-- An operator stands before each bound. -/
theorem breaks (bounds : Bounds) (levelled : bounds.Levelled) (rest : List Word) :
    Breaks (.chain .plus) (bounds.words ++ rest) := by
  cases bounds with
  | last op bound => exact .of_sign (range_sign levelled.1) (by decide)
  | more op bound later => exact .of_sign (range_sign levelled.1) (by decide)

theorem read_last (levelled : (Bounds.last op bound).Levelled)
    (reads : bound.ReadAt (.chain .plus)) : (Bounds.last op bound).Read := by
  intro o rest usual breaks
  have known := range_sign levelled.1
  have operand :=
    @Formula.ReadAt.operand _ (.chain .range) _ _ reads known usual (breaks.tighten (by decide)) o
  refine ⟨[((Word.sign op).token o, bound.nodeAt (o + Text.byteSize op + 1))], List.cons_ne_nil _ _,
    rfl, ?_⟩
  rw [words, Word.reach_cons, bound.reach_words]
  refine .more operand ?_ ?_
  · simp only [Word.length_chart, List.length_cons, List.length_append]
    omega
  · rw [← Nat.add_assoc, ← Nat.add_assoc, ← Nat.add_assoc]
    exact .stop (breaks.operand_fails _)

theorem read_more (levelled : (Bounds.more op bound more).Levelled)
    (reads : bound.ReadAt (.chain .plus)) (later : more.Read) :
    (Bounds.more op bound more).Read := by
  intro o rest usual breaks
  obtain ⟨known, -, last⟩ := levelled
  have behind := List.forall_mem_append.mpr ⟨more.usual_words last, usual⟩
  have operand := @Formula.ReadAt.operand _ (.chain .range) _ _ reads (range_sign known) behind
    (more.breaks last rest) o
  obtain ⟨items, -, nodes, repeats⟩ :=
    later (o + Text.byteSize op + 1 + bound.size + 1) rest usual breaks
  refine ⟨((Word.sign op).token o, bound.nodeAt (o + Text.byteSize op + 1)) :: items,
    List.cons_ne_nil _ _, congrArg (List.cons _) nodes, ?_⟩
  rw [words, Word.reach_cons, Word.reach_append, bound.reach_words, List.cons_append,
    List.append_assoc]
  refine .more operand ?_ ?_
  · simp only [Word.length_chart, List.length_cons, List.length_append]
    omega
  · have place : o + (Text.byteSize op + 1 + (bound.size + 1 + Word.reach more.words)) =
        o + Text.byteSize op + 1 + bound.size + 1 + Word.reach more.words := by omega
    exact place ▸ repeats

end Bounds

theorem Formula.readAt_range {first : Formula} {rest : Bounds}
    (levelled : (Formula.range first rest).Levelled) (reads : first.ReadAt (.chain .plus))
    (bounds : rest.Read) : (Formula.range first rest).ReadAt (.chain .range) := by
  intro o more usual breaks
  obtain ⟨-, -, later⟩ := levelled
  have behind := List.forall_mem_append.mpr ⟨rest.usual_words later, usual⟩
  obtain ⟨items, some, nodes, repeats⟩ := bounds (o + first.size + 1) more usual breaks
  have continues : first.Continues .range := reads.continues
  have found := continues o _ items _ behind (rest.breaks later more) repeats
  have place : o + first.size + 1 + Word.reach rest.words =
      o + (Formula.range first rest).size + 1 := by
    rw [size_range]
    omega
  rw [words, List.append_assoc, found, place, ← wrap_range, ← nodes]
  simp [Level.combine, some]

/-- A formula is read by the parsers of its own strength and of all looser ones, and a chain can go
on with further operands. -/
structure Formula.Read (e : Formula) : Prop where
  readAt : ∀ strength, e.AtLeast strength → e.ReadAt strength
  continues : ∀ level, level ≠ .range → e.AtLeast (.chain level) → e.Continues level

theorem Formula.Read.of_own {e : Formula} (levelled : e.Levelled) (own : e.ReadAt e.strength)
    (chain : ∀ level, level ≠ .range → e.strength = .chain level → e.Continues level) : e.Read := by
  have readAt : ∀ strength, e.AtLeast strength → e.ReadAt strength :=
    fun strength looser => own.loosen levelled (Nat.le_refl _) looser
  refine ⟨readAt, fun level other atLeast => ?_⟩
  by_cases same : e.strength = .chain level
  · exact chain level other same
  · -- the formula holds together more tightly than the level, so it is its first operand
    have step := @Strength.rank_next (.chain level) Strength.noConfusion
    have apart : (Strength.chain level).rank ≠ e.strength.rank :=
      fun equal => same (Strength.rank_injective equal).symm
    have : (Strength.chain level).rank ≤ e.strength.rank := atLeast
    apply ReadAt.continues
    apply readAt
    unfold AtLeast
    omega

mutual

theorem Formula.read (e : Formula) (levelled : e.Levelled) : e.Read := by
  match e with
  | .name text =>
    exact .of_own levelled (Formula.readAt_name levelled) (fun level _ same => by cases same)
  | .enclosed inner =>
    have levelled' : inner.Levelled := levelled
    have inside := (inner.read levelled').readAt .pair (Nat.zero_le _)
    have own := Formula.readAt_enclosed levelled' inside
    exact .of_own levelled own (fun level _ same => by cases same)
  | .prefixed op operand =>
    have inside := operand.read levelled.2.2
    have own := Formula.readAt_prefixed levelled (inside.readAt _ levelled.2.1)
    exact .of_own levelled own (fun level _ same => by cases same)
  | .range first rest =>
    have head := first.read levelled.2.1
    have own := Formula.readAt_range levelled (head.readAt _ levelled.1) (rest.read levelled.2.2)
    refine .of_own levelled own fun level other same => ?_
    cases same
    exact absurd rfl other
  | .binary strength left op right =>
    obtain ⟨other, known, ⟨tight, first⟩, tight', second⟩ := id levelled
    have before := left.read first
    have after := right.read second
    cases strength with
    | pair =>
      have own := Formula.readAt_pair levelled (before.readAt _ tight) (after.readAt _ tight')
      exact .of_own levelled own (fun level _ same => by cases same)
    | power =>
      have own := Formula.readAt_power levelled (before.readAt _ tight) (after.readAt _ tight')
      exact .of_own levelled own (fun level _ same => by cases same)
    | chain level =>
      have leaning := before.continues level (fun same => other (congrArg _ same)) tight
      have goes := Formula.continues_binary levelled leaning (after.readAt _ tight')
      refine .of_own levelled goes.readAt fun again _ same => ?_
      cases same
      exact goes
    | unary | atom => cases known

theorem Bounds.read (bounds : Bounds) (levelled : bounds.Levelled) : bounds.Read := by
  match bounds with
  | .last op bound =>
    have inside := bound.read levelled.2.2
    exact Bounds.read_last levelled (inside.readAt _ levelled.2.1)
  | .more op bound rest =>
    obtain ⟨-, ⟨tight, here⟩, later⟩ := id levelled
    have inside := bound.read here
    exact Bounds.read_more levelled (inside.readAt _ tight) (rest.read later)

end

mutual

theorem Formula.hasErrors_nodeAt (e : Formula) (o : Nat) : (e.nodeAt o).hasErrors = false := by
  have sign (span : Span) : (Node.leaf .operator span).hasErrors = false := rfl
  rw [Node.hasErrors_eq]
  match e with
  | .name text => rfl
  | .enclosed inner => simp [Formula.nodeAt, inner.hasErrors_nodeAt]
  | .prefixed op operand => simp [Formula.nodeAt, sign, operand.hasErrors_nodeAt]
  | .binary strength left op right =>
    simp [Formula.nodeAt, sign, left.hasErrors_nodeAt, right.hasErrors_nodeAt]
  | .range first rest =>
    simp only [Formula.nodeAt, List.any_cons, first.hasErrors_nodeAt, rest.hasErrors_nodesAt]
    rfl

theorem Bounds.hasErrors_nodesAt (bounds : Bounds) (o : Nat) :
    (bounds.nodesAt o).any Node.hasErrors = false := by
  match bounds with
  | .last op bound => simp [Bounds.nodesAt, bound.hasErrors_nodeAt]
  | .more op bound rest =>
    rw [Bounds.nodesAt, List.any_cons, bound.hasErrors_nodeAt, rest.hasErrors_nodesAt]
    rfl

end

theorem unheard_separator : Unheard isSeparator := by
  intro word usual o
  have line : ((word.token o).kind == .newline) = false := unheard_kind (by decide) word usual o
  rw [isSeparator, line, Bool.false_or]
  exact unheard_punctuation (by decide) word usual o

/-- A statement that takes all the words is the one child of the file. -/
theorem parse_of_statement {text : Text} {words : List Word} {node : Node}
    (usual : ∀ word ∈ words, word.Usual) (scanned : tokenizeRecovering text = Word.tokens 0 words)
    (found : rule Row.statement (Word.chart 0 words) = some (node, [])) :
    parse text = ⟨.sourceFile, ⟨0, Text.byteSize text⟩, [node]⟩ := by
  have leading : many separator (Word.chart 0 words) = some ([], Word.chart 0 words) :=
    many_of_none (Word.refused unheard_separator usual)
  have item : fileItem (Word.chart 0 words) = some (node, []) :=
    orElse_of_some (bind_of_some found)
  have items : separated fileItem (many1 separator) (Word.chart 0 words) = some ([node], []) :=
    orElse_of_some (bind_of_some item)
  have file : Grammar.file (Word.chart 0 words) = some (.wrap .sourceFile [node], []) :=
    (bind_of_some leading).trans (bind_of_some items)
  rw [parse, parse?, scanned]
  change (((Grammar.file (Word.chart 0 words)).map _).getD _) = _
  rw [file]
  rfl

/-- The text of a formula is read as that formula. Whatever operators it is made of and however deep
it is, if each operand is as tight as its place asks for then the file has the tree of the formula
as its only child, and no errors. -/
theorem formula_read_back (e : Formula) (levelled : e.Levelled) :
    parse e.text = ⟨.sourceFile, ⟨0, Text.byteSize e.text⟩, [e.nodeAt 0]⟩ ∧
      (parse e.text).hasErrors = false := by
  have usual := e.usual_words levelled
  have apart : (e.words ++ []).IsChain Word.Apart := e.apart_words levelled (by simp) .nil
  rw [List.append_nil] at apart
  have found := (e.read levelled).readAt .pair (Nat.zero_le _) 0 [] (by simp) (by simp [Breaks])
  rw [List.append_nil] at found
  have statement := statement_of_arrow usual (by simp) (arrow_of_pair usual (by simp) found)
  have parsed := parse_of_statement usual (tokenizeRecovering_spaced usual apart) statement
  refine ⟨parsed, ?_⟩
  rw [Formula.text, parsed, Node.hasErrors_eq]
  simp [e.hasErrors_nodeAt]

def mixedFormula : Formula :=
  .binary .pair (.name ['a'])
    (.sign ['=', '>'])
    (.binary (.chain .disjunction)
      (.binary (.chain .comparison)
        (.range (.prefixed ['-'] (.name ['π']))
          (.more [':']
            (.enclosed
              (.binary (.chain .plus) (.name ['c']) (.sign ['.', '+'])
                (.binary (.chain .times) (.name ['d']) (.sign ['*'])
                  (.binary .power (.name ['f']) (.sign ['^'])
                    (.prefixed ['!']
                      (.binary .power (.name ['g']) (.sign ['.', '^']) (.name ['h'])))))))
            (.last ['.', '.'] (.name ['i']))))
        .isIn (.name ['t', 'y', 'p', 'e']))
      (.sign ['|', '|'])
      (.binary (.chain .comparison)
        (.binary (.chain .comparison) (.name ['x', '!']) (.sign ['<', ':']) (.name ['y']))
        (.sign ['.', '!', '=']) (.prefixed ['>', ':'] (.name ['z']))))

theorem mixedFormula_read_back :
    mixedFormula.Levelled ∧
      mixedFormula.text =
        "a => - π : ( c .+ d * f ^ ! g .^ h ) .. i in type || x! <: y .!= >: z".toList ∧
      parse mixedFormula.text = ⟨.sourceFile, ⟨0, 70⟩, [mixedFormula.nodeAt 0]⟩ ∧
      (parse mixedFormula.text).hasErrors = false := by
  have levelled : mixedFormula.Levelled := by decide
  exact ⟨levelled, by decide +kernel, formula_read_back mixedFormula levelled⟩

end CellBindings
