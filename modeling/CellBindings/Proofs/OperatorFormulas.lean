import CellBindings.Grammar.Expression
import CellBindings.Proofs.TokenEnclosures

/-!
Formulas: names, parentheses and operators. Every operator has a strength, and every place in a
formula asks for an operand that holds together tightly enough. A formula is written as words with
one blank between any two of them. Its tree has a node for each of its parts, over the text of that
part.
-/

namespace CellBindings

open Grammar

structure Word where
  kind : Token.Kind
  text : Text
  deriving DecidableEq, Repr

namespace Word

def name (text : Text) : Word := ⟨.identifier, text⟩

def sign (text : Text) : Word := ⟨.operator, text⟩

def opening : Word := ⟨.punctuation, ['(']⟩

def closing : Word := ⟨.punctuation, [')']⟩

def isIn : Word := ⟨.keyword .inKw, ['i', 'n']⟩

def isA : Word := ⟨.keyword .isaKw, ['i', 's', 'a']⟩

def spaced (words : List Word) : Text := [' '].intercalate (words.map text)

def reach : List Word → Nat
  | [] => 0
  | word :: words => Text.byteSize word.text + 1 + reach words

@[simp] theorem reach_nil : reach [] = 0 := rfl

@[simp] theorem reach_cons (word : Word) (words : List Word) :
    reach (word :: words) = Text.byteSize word.text + 1 + reach words := rfl

@[simp] theorem reach_append (front back : List Word) :
    reach (front ++ back) = reach front + reach back := by
  induction front with
  | nil => simp
  | cons word front ih =>
    rw [List.cons_append, reach_cons, reach_cons, ih]
    omega

def behind : List Word → Text
  | [] => []
  | word :: words => ' ' :: spaced (word :: words)

theorem spaced_cons (word : Word) (words : List Word) :
    spaced (word :: words) = word.text ++ behind words := by
  cases words with
  | nil => simp [spaced, behind, List.intercalate]
  | cons next words => simp [spaced, behind, List.intercalate]

theorem byteSize_behind (words : List Word) : Text.byteSize (behind words) = reach words := by
  induction words with
  | nil => rfl
  | cons word words ih =>
    have blank : Char.utf8Size ' ' = 1 := rfl
    rw [behind, Text.byteSize_cons, spaced_cons, Text.byteSize_append, ih, reach_cons]
    omega

theorem reach_eq {words : List Word} (some : words ≠ []) :
    reach words = Text.byteSize (spaced words) + 1 := by
  cases words with
  | nil => exact absurd rfl some
  | cons word words =>
    rw [spaced_cons, Text.byteSize_append, byteSize_behind, reach_cons]
    omega

end Word

inductive Strength where
  | pair
  | chain (level : Level)
  | unary
  | power
  | atom
  deriving DecidableEq, Repr

namespace Grammar

def dotted (spellings : List Text) : List Text := spellings.map ('.' :: ·)

namespace Level

def spellings : Level → List Text
  | .disjunction => [['|', '|']]
  | .conjunction => [['&', '&']]
  | .comparison =>
    comparisonOperators ++ dotted (comparisonOperators.filter fun op => !undottable.contains op)
  | .pipe => [['|', '>'], ['<', '|']]
  | .range => [[':'], ['.', '.']]
  | .plus => plusOperators ++ dotted plusOperators
  | .times => timesOperators ++ dotted timesOperators
  | .shift => shiftOperators ++ dotted shiftOperators

def signs (level : Level) : List Word :=
  level.spellings.map .sign ++ if level = .comparison then [.isIn, .isA] else []

end Level

end Grammar

namespace Strength

def all : List Strength := .pair :: (Level.all.map .chain ++ [.unary, .power, .atom])

def rank (strength : Strength) : Nat := all.idxOf strength

def next : Strength → Strength
  | .pair => .chain .disjunction
  | .chain .disjunction => .chain .conjunction
  | .chain .conjunction => .chain .comparison
  | .chain .comparison => .chain .pipe
  | .chain .pipe => .chain .range
  | .chain .range => .chain .plus
  | .chain .plus => .chain .times
  | .chain .times => .chain .shift
  | .chain .shift => .unary
  | .unary => .power
  | .power | .atom => .atom

def signs : Strength → List Word
  | .pair => [.sign ['=', '>']]
  | .chain level => level.signs
  | .power => [.sign ['^'], .sign ['.', '^']]
  | .unary | .atom => []

/-- What the left operand has to be: chains lean to the left, pairs and powers do not. -/
def left : Strength → Strength
  | .chain level => .chain level
  | strength => strength.next

/-- What the right operand has to be: pairs lean to the right, and an exponent may have operators
before it. -/
def right : Strength → Strength
  | .chain level => (Strength.chain level).next
  | .power => .unary
  | strength => strength

theorem mem_all (strength : Strength) : strength ∈ all := by
  cases strength with
  | chain level => cases level <;> decide
  | pair | unary | power | atom => decide

theorem rank_injective {a b : Strength} (same : a.rank = b.rank) : a = b :=
  (List.idxOf_inj (mem_all a)).mp same

theorem rank_le_atom (strength : Strength) : strength.rank ≤ Strength.atom.rank := by
  cases strength with
  | chain level => cases level <;> decide
  | pair | unary | power | atom => decide

theorem rank_chain (level : Level) :
    Strength.pair.rank < (Strength.chain level).rank ∧
      (Strength.chain level).rank < Strength.unary.rank := by
  cases level <;> decide

theorem rank_next {strength : Strength} (loose : strength ≠ .atom) :
    strength.next.rank = strength.rank + 1 := by
  cases strength with
  | chain level => cases level <;> decide
  | atom => exact absurd rfl loose
  | pair | unary | power => decide

end Strength

mutual

/-- A formula. The strength of a binary operator is that of the whole. -/
inductive Formula where
  | name (text : Text)
  | enclosed (inner : Formula)
  | prefixed (op : Text) (operand : Formula)
  | binary (strength : Strength) (left : Formula) (op : Word) (right : Formula)
  /-- A range has a first bound and at least one more. -/
  | range (first : Formula) (rest : Bounds)

inductive Bounds where
  | last (op : Text) (bound : Formula)
  | more (op : Text) (bound : Formula) (rest : Bounds)

end

namespace Formula

def strength : Formula → Strength
  | .name _ | .enclosed _ => .atom
  | .prefixed _ _ => .unary
  | .binary strength _ _ _ => strength
  | .range _ _ => .chain .range

def AtLeast (e : Formula) (strength : Strength) : Prop := strength.rank ≤ e.strength.rank

instance (e : Formula) (strength : Strength) : Decidable (e.AtLeast strength) :=
  inferInstanceAs (Decidable (_ ≤ _))

end Formula

mutual

def Formula.words : Formula → List Word
  | .name text => [.name text]
  | .enclosed inner => .opening :: (inner.words ++ [.closing])
  | .prefixed op operand => .sign op :: operand.words
  | .binary _ left op right => left.words ++ op :: right.words
  | .range first rest => first.words ++ rest.words

def Bounds.words : Bounds → List Word
  | .last op bound => .sign op :: bound.words
  | .more op bound rest => .sign op :: (bound.words ++ rest.words)

end

namespace Formula

def text (e : Formula) : Text := Word.spaced e.words

def size (e : Formula) : Nat := Text.byteSize e.text

end Formula

mutual

def Formula.nodeAt : Formula → Nat → Node
  | .name text, o => .leaf .identifier ⟨o, o + Text.byteSize text⟩
  | .enclosed inner, o =>
    ⟨.parenthesizedExpression, ⟨o, o + (Formula.enclosed inner).size⟩, [inner.nodeAt (o + 2)]⟩
  | .prefixed op operand, o =>
    ⟨.unaryExpression, ⟨o, o + (Formula.prefixed op operand).size⟩,
      [.leaf .operator ⟨o, o + Text.byteSize op⟩, operand.nodeAt (o + Text.byteSize op + 1)]⟩
  | .binary strength left op right, o =>
    let sign := o + left.size + 1
    ⟨.binaryExpression, ⟨o, o + (Formula.binary strength left op right).size⟩,
      [left.nodeAt o, .leaf .operator ⟨sign, sign + Text.byteSize op.text⟩,
        right.nodeAt (sign + Text.byteSize op.text + 1)]⟩
  | .range first rest, o =>
    ⟨.rangeExpression, ⟨o, o + (Formula.range first rest).size⟩,
      first.nodeAt o :: rest.nodesAt (o + first.size + 1)⟩

def Bounds.nodesAt : Bounds → Nat → List Node
  | .last op bound, o => [bound.nodeAt (o + Text.byteSize op + 1)]
  | .more op bound rest, o =>
    let start := o + Text.byteSize op + 1
    bound.nodeAt start :: rest.nodesAt (start + bound.size + 1)

end

mutual

/-- Names are free, operators are of the strength they stand for, and each operand is as tight as
its place asks for. -/
def Formula.Levelled : Formula → Prop
  | .name text => text.IsName ∧ Keyword.ofName? text = none
  | .enclosed inner => inner.Levelled
  | .prefixed op operand => op ∈ unaryOperators ∧ operand.AtLeast .unary ∧ operand.Levelled
  | .binary strength left op right =>
    strength ≠ .chain .range ∧ op ∈ strength.signs ∧
      (left.AtLeast strength.left ∧ left.Levelled) ∧ right.AtLeast strength.right ∧ right.Levelled
  | .range first rest => first.AtLeast (.chain .plus) ∧ first.Levelled ∧ rest.Levelled

def Bounds.Levelled : Bounds → Prop
  | .last op bound =>
    op ∈ Level.range.spellings ∧ bound.AtLeast (.chain .plus) ∧ bound.Levelled
  | .more op bound rest =>
    op ∈ Level.range.spellings ∧ (bound.AtLeast (.chain .plus) ∧ bound.Levelled) ∧ rest.Levelled

end

instance : (text : Text) → Decidable text.IsName
  | [] => .isFalse fun ⟨_, _, same, _⟩ => by cases same
  | c :: cs =>
    decidable_of_iff ((isNameStart c && cs.all fun d => d == '!' || isNameChar d) = true) <| by
      simp only [Bool.and_eq_true, List.all_eq_true, Bool.or_eq_true, beq_iff_eq]
      constructor
      · exact fun ⟨start, tail⟩ => ⟨c, cs, rfl, start, tail⟩
      · rintro ⟨_, _, same, start, tail⟩
        cases same
        exact ⟨start, tail⟩

mutual

instance Formula.decideLevelled : (e : Formula) → Decidable e.Levelled
  | .name text => inferInstanceAs (Decidable (text.IsName ∧ Keyword.ofName? text = none))
  | .enclosed inner => inner.decideLevelled
  | .prefixed _ operand =>
    have := operand.decideLevelled
    inferInstanceAs (Decidable (_ ∧ _ ∧ _))
  | .binary _ left _ right =>
    have := left.decideLevelled
    have := right.decideLevelled
    inferInstanceAs (Decidable (_ ∧ _ ∧ (_ ∧ _) ∧ _ ∧ _))
  | .range first rest =>
    have := first.decideLevelled
    have := rest.decideLevelled
    inferInstanceAs (Decidable (_ ∧ _ ∧ _))

instance Bounds.decideLevelled : (bounds : Bounds) → Decidable bounds.Levelled
  | .last _ bound =>
    have := bound.decideLevelled
    inferInstanceAs (Decidable (_ ∧ _ ∧ _))
  | .more _ bound rest =>
    have := bound.decideLevelled
    have := rest.decideLevelled
    inferInstanceAs (Decidable (_ ∧ (_ ∧ _) ∧ _))

end

namespace Formula

def head : Formula → Word
  | .name text => .name text
  | .enclosed _ => .opening
  | .prefixed op _ => .sign op
  | .binary _ left _ _ => left.head
  | .range first _ => first.head

theorem words_eq (e : Formula) : ∃ tail, e.words = e.head :: tail := by
  match e with
  | .name text => exact ⟨[], rfl⟩
  | .enclosed inner => exact ⟨_, rfl⟩
  | .prefixed op operand => exact ⟨_, rfl⟩
  | .binary _ left op right =>
    obtain ⟨tail, same⟩ := left.words_eq
    exact ⟨tail ++ op :: right.words, by rw [words, same]; rfl⟩
  | .range first rest =>
    obtain ⟨tail, same⟩ := first.words_eq
    exact ⟨tail ++ rest.words, by rw [words, same]; rfl⟩

theorem head_ne_closing (e : Formula) : e.head ≠ .closing := by
  match e with
  | .name text => exact fun same => by cases same
  | .enclosed inner => exact show Word.opening ≠ .closing by decide
  | .prefixed op operand => exact fun same => by cases same
  | .binary _ left op right => exact left.head_ne_closing
  | .range first rest => exact first.head_ne_closing

/-- Operators stand before a formula only if it holds together no tighter than they do. -/
theorem head_of_tight (e : Formula) (levelled : e.Levelled) (tight : e.AtLeast .power) :
    e.head.kind ≠ .operator := by
  match e with
  | .name text => exact Token.Kind.noConfusion
  | .enclosed inner => exact Token.Kind.noConfusion
  | .prefixed op operand =>
    exact absurd tight (show ¬ Strength.power.rank ≤ Strength.unary.rank by decide)
  | .range first rest =>
    exact absurd tight (show ¬ Strength.power.rank ≤ (Strength.chain .range).rank by decide)
  | .binary strength left op right =>
    obtain ⟨-, known, ⟨base, levelled⟩, -⟩ := levelled
    cases strength with
    | power => exact left.head_of_tight levelled (Nat.le_trans (by decide) base)
    | chain level =>
      have loose := (Strength.rank_chain level).2
      exact absurd tight (Nat.not_le.mpr (Nat.lt_trans loose (by decide)))
    | pair => exact absurd tight (show ¬ Strength.power.rank ≤ Strength.pair.rank by decide)
    | unary | atom => cases known

theorem reach_words (e : Formula) : Word.reach e.words = e.size + 1 := by
  obtain ⟨words, same⟩ := e.words_eq
  exact Word.reach_eq (by rw [same]; exact List.cons_ne_nil _ _)

theorem size_name (text : Text) : (Formula.name text).size = Text.byteSize text := by
  have reach : Word.reach [.name text] = _ := (Formula.name text).reach_words
  simp only [Word.reach_cons, Word.reach_nil, Word.name] at reach
  omega

theorem size_enclosed (inner : Formula) : (Formula.enclosed inner).size = inner.size + 4 := by
  have reach : Word.reach (.opening :: (inner.words ++ [.closing])) = _ :=
    (Formula.enclosed inner).reach_words
  have one : Text.byteSize ['('] = 1 ∧ Text.byteSize [')'] = 1 := by decide
  simp only [Word.reach_cons, Word.reach_append, Word.reach_nil, Word.opening, Word.closing,
    inner.reach_words] at reach
  omega

theorem size_prefixed (op : Text) (operand : Formula) :
    (Formula.prefixed op operand).size = Text.byteSize op + 1 + operand.size := by
  have reach : Word.reach (.sign op :: operand.words) = _ :=
    (Formula.prefixed op operand).reach_words
  simp only [Word.reach_cons, Word.sign, operand.reach_words] at reach
  omega

theorem size_binary (strength : Strength) (left : Formula) (op : Word) (right : Formula) :
    (Formula.binary strength left op right).size =
      left.size + 1 + Text.byteSize op.text + 1 + right.size := by
  have reach : Word.reach (left.words ++ op :: right.words) = _ :=
    (Formula.binary strength left op right).reach_words
  simp only [Word.reach_cons, Word.reach_append, left.reach_words, right.reach_words] at reach
  omega

theorem size_range (first : Formula) (rest : Bounds) :
    (Formula.range first rest).size = first.size + Word.reach rest.words := by
  have reach : Word.reach (first.words ++ rest.words) = _ := (Formula.range first rest).reach_words
  simp only [Word.reach_append, first.reach_words] at reach
  omega

/-- Each node of the tree lies over the text of its part. -/
theorem span_nodeAt (e : Formula) (o : Nat) : (e.nodeAt o).span = ⟨o, o + e.size⟩ := by
  cases e with
  | name text => rw [size_name]; rfl
  | enclosed | prefixed | binary | range => rfl

/-- The span over a formula and something before it. -/
theorem cover_nodeAt {start stop o : Nat} (e : Formula) (before : start ≤ o) (apart : stop ≤ o) :
    Span.cover ⟨start, stop⟩ (e.nodeAt o).span = ⟨start, o + e.size⟩ := by
  simp only [span_nodeAt, Span.cover, Span.mk.injEq]
  omega

theorem wrap_prefixed (op : Text) (operand : Formula) (o : Nat) :
    Node.wrap .unaryExpression
      [.leaf .operator ⟨o, o + Text.byteSize op⟩, operand.nodeAt (o + Text.byteSize op + 1)] =
        (Formula.prefixed op operand).nodeAt o := by
  simp only [Node.wrap, Node.coverAll, List.foldl, Node.leaf, nodeAt]
  rw [cover_nodeAt operand (by omega) (by omega), size_prefixed]
  simp only [Nat.add_assoc]

theorem wrap_binary (strength : Strength) (left : Formula) (op : Word) (right : Formula) (o : Nat) :
    let sign := o + left.size + 1
    Node.wrap .binaryExpression
      [left.nodeAt o, .leaf .operator ⟨sign, sign + Text.byteSize op.text⟩,
        right.nodeAt (sign + Text.byteSize op.text + 1)] =
          (Formula.binary strength left op right).nodeAt o := by
  have first : Span.cover ⟨o, o + left.size⟩
      ⟨o + left.size + 1, o + left.size + 1 + Text.byteSize op.text⟩ =
        ⟨o, o + left.size + 1 + Text.byteSize op.text⟩ := by
    simp only [Span.cover, Span.mk.injEq]
    omega
  simp only [Node.wrap, Node.coverAll, List.foldl, Node.leaf, nodeAt, span_nodeAt left, first]
  rw [cover_nodeAt right (by omega) (by omega), size_binary]
  simp only [Nat.add_assoc]

end Formula

/-- The span of a range, from the bounds read so far on. -/
theorem Bounds.cover_nodesAt {start stop o : Nat} (bounds : Bounds) (before : start ≤ o)
    (apart : stop ≤ o) :
    (bounds.nodesAt o).foldl (fun span node => Span.cover span node.span) ⟨start, stop⟩ =
      (⟨start, o + Word.reach bounds.words - 1⟩ : Span) := by
  match bounds with
  | .last op bound =>
    simp only [nodesAt, List.foldl]
    rw [bound.cover_nodeAt (by omega) (by omega), words, Word.reach_cons, bound.reach_words]
    congr 1
    simp only [Word.sign]
    omega
  | .more op bound rest =>
    simp only [nodesAt, List.foldl]
    rw [bound.cover_nodeAt (by omega) (by omega), rest.cover_nodesAt (by omega) (by omega), words,
      Word.reach_cons, Word.reach_append, bound.reach_words]
    congr 1
    simp only [Word.sign]
    omega

theorem Formula.wrap_range (first : Formula) (rest : Bounds) (o : Nat) :
    Node.wrap .rangeExpression (first.nodeAt o :: rest.nodesAt (o + first.size + 1)) =
      (Formula.range first rest).nodeAt o := by
  simp only [Node.wrap, Node.coverAll, nodeAt]
  rw [span_nodeAt, rest.cover_nodesAt (by omega) (by omega), size_range]
  congr 2
  omega

end CellBindings
