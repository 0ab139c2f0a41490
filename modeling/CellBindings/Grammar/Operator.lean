import CellBindings.Token.Basic

/-!
Operators by their binding strength. An operator stands also for its dotted form.
-/

namespace CellBindings.Grammar

def plusOperators : List Text :=
  [['+'], ['-'], ['|'], ['⊻'], ['∪'], ['±'], ['∓'], ['⊕']]

def timesOperators : List Text :=
  [['*'], ['/'], ['÷'], ['%'], ['&'], ['\\'], ['∘'], ['∩'], ['×'], ['⋅'], ['⊗'], ['/', '/']]

def shiftOperators : List Text := [['<', '<'], ['>', '>'], ['>', '>', '>']]

def unaryOperators : List Text :=
  [['-'], ['+'], ['!'], ['~'], ['¬'], ['√'], ['∛'], ['<', ':'], ['>', ':']]

def comparisonOperators : List Text :=
  [['=', '='], ['!', '='], ['=', '=', '='], ['!', '=', '='], ['<'], ['>'], ['<', '='], ['>', '='],
    ['≤'], ['≥'], ['≠'], ['≡'], ['≢'], ['≈'], ['<', ':'], ['>', ':'], ['∈'], ['∉'], ['∋'], ['⊆'],
    ['⊂'], ['⊇'], ['⊃']]

/-- Operators that end in an equals sign without assigning. -/
def equalities : List Text :=
  [['=', '='], ['=', '=', '='], ['!', '='], ['!', '=', '='], ['<', '='], ['>', '=']]

/-- An operator of the set, or one with a dot before it. -/
def isAmong (spellings : List Text) (t : Token) : Bool :=
  t.kind == .operator &&
    (spellings.contains t.text ||
      match t.text with
      | '.' :: plain => spellings.contains plain
      | _ => false)

def isComparison (t : Token) : Bool :=
  isAmong comparisonOperators t || t.isKeyword .inKw || t.isKeyword .isaKw

def isAssignment (t : Token) : Bool :=
  t.kind == .operator &&
    (t.text == ['='] || (t.text.getLast? == some '=' && !isAmong equalities t))

/-- Levels of binary operators, the loosest first. -/
inductive Level where
  | disjunction | conjunction | comparison | pipe | range | plus | times | shift
  deriving DecidableEq, Repr

namespace Level

def accepts : Level → Token → Bool
  | .disjunction, t => t.isOperator ['|', '|']
  | .conjunction, t => t.isOperator ['&', '&']
  | .comparison, t => isComparison t
  | .pipe, t => t.isOperator ['|', '>'] || t.isOperator ['<', '|']
  | .range, t => t.isOperator [':'] || t.isOperator ['.', '.']
  | .plus, t => isAmong plusOperators t
  | .times, t => isAmong timesOperators t
  | .shift, t => isAmong shiftOperators t

/-- From comparisons inwards. -/
def fromComparison : List Level := [.comparison, .pipe, .range, .plus, .times, .shift]

def all : List Level := .disjunction :: .conjunction :: fromComparison

end Level

end CellBindings.Grammar
