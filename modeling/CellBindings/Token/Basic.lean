import CellBindings.Text.Basic

/-!
Tokens of Julia source. A token keeps its spelling, its place, and whether a gap stands before it:
the grammar reads that flag to tell a call from a parenthesis that merely follows.
-/

namespace CellBindings

/-- The reserved words, the contextual ones included. -/
inductive Keyword where
  | abstractKw | baremoduleKw | beginKw | breakKw | catchKw | constKw | continueKw | doKw
  | elseKw | elseifKw | endKw | exportKw | falseKw | finallyKw | forKw | functionKw | globalKw
  | ifKw | importKw | inKw | isaKw | letKw | localKw | macroKw | moduleKw | mutableKw
  | primitiveKw | quoteKw | returnKw | structKw | trueKw | tryKw | typeKw | usingKw | whereKw
  | whileKw
  deriving DecidableEq, Repr

namespace Keyword

/-- Words that are reserved wherever they stand, with their spelling. -/
def reserved : List (Text × Keyword) :=
  [(['b', 'a', 'r', 'e', 'm', 'o', 'd', 'u', 'l', 'e'], .baremoduleKw),
    (['b', 'e', 'g', 'i', 'n'], .beginKw),
    (['b', 'r', 'e', 'a', 'k'], .breakKw),
    (['c', 'a', 't', 'c', 'h'], .catchKw),
    (['c', 'o', 'n', 's', 't'], .constKw),
    (['c', 'o', 'n', 't', 'i', 'n', 'u', 'e'], .continueKw),
    (['d', 'o'], .doKw),
    (['e', 'l', 's', 'e'], .elseKw),
    (['e', 'l', 's', 'e', 'i', 'f'], .elseifKw),
    (['e', 'n', 'd'], .endKw),
    (['e', 'x', 'p', 'o', 'r', 't'], .exportKw),
    (['f', 'a', 'l', 's', 'e'], .falseKw),
    (['f', 'i', 'n', 'a', 'l', 'l', 'y'], .finallyKw),
    (['f', 'o', 'r'], .forKw),
    (['f', 'u', 'n', 'c', 't', 'i', 'o', 'n'], .functionKw),
    (['g', 'l', 'o', 'b', 'a', 'l'], .globalKw),
    (['i', 'f'], .ifKw),
    (['i', 'm', 'p', 'o', 'r', 't'], .importKw),
    (['i', 'n'], .inKw),
    (['i', 's', 'a'], .isaKw),
    (['l', 'e', 't'], .letKw),
    (['l', 'o', 'c', 'a', 'l'], .localKw),
    (['m', 'a', 'c', 'r', 'o'], .macroKw),
    (['m', 'o', 'd', 'u', 'l', 'e'], .moduleKw),
    (['q', 'u', 'o', 't', 'e'], .quoteKw),
    (['r', 'e', 't', 'u', 'r', 'n'], .returnKw),
    (['s', 't', 'r', 'u', 'c', 't'], .structKw),
    (['t', 'r', 'u', 'e'], .trueKw),
    (['t', 'r', 'y'], .tryKw),
    (['u', 's', 'i', 'n', 'g'], .usingKw),
    (['w', 'h', 'e', 'r', 'e'], .whereKw),
    (['w', 'h', 'i', 'l', 'e'], .whileKw)]

def ofName? (name : Text) : Option Keyword := reserved.lookup name

/-- Words that open a block closed by `end` wherever they stand. -/
def opensBlock : Keyword → Bool
  | .baremoduleKw | .doKw | .functionKw | .letKw | .macroKw | .moduleKw | .quoteKw | .structKw | .tryKw
  | .whileKw => true
  | _ => false

end Keyword

inductive Token.Kind where
  | identifier
  | keyword (word : Keyword)
  /-- `end` or `begin` inside an indexing bracket. -/
  | indexKeyword
  | integer
  | float
  | char
  /-- Opening delimiter of a string or command, with any marker before it. -/
  | stringStart
  | stringChunk
  /-- Closing delimiter of a string or command, with any flags after it. -/
  | stringEnd
  | macroName
  | operator
  /-- The colon of a conditional expression. -/
  | ternaryColon
  /-- Brackets, comma and semicolon. -/
  | punctuation
  /-- A line break that separates statements. -/
  | newline
  | unknown
  /-- An unterminated literal or comment, up to the end of the text. -/
  | error
  deriving DecidableEq, Repr

structure Token where
  kind : Token.Kind
  text : Text
  span : Span
  /-- A blank, a comment or a line break stands before the token. -/
  spaceBefore : Bool
  deriving DecidableEq, Repr

namespace Token

def isOperator (t : Token) (spelling : Text) : Bool :=
  t.kind == .operator && t.text == spelling

def isKeyword (t : Token) (word : Keyword) : Bool := t.kind == .keyword word

def isPunctuation (t : Token) (c : Char) : Bool := t.kind == .punctuation && t.text == [c]

/-- The token can end an operand: a quote after it is an adjoint, and `for` or `if` after it belongs
to a generator. -/
def endsValue (t : Token) : Bool :=
  match t.kind with
  | .identifier | .indexKeyword | .integer | .float | .char | .stringEnd => true
  | .punctuation => t.text == [')'] || t.text == [']'] || t.text == ['}']
  | .operator => t.text == ['\x27'] || t.text == ['.', '.', '.']
  | .keyword word => word == .endKw || word == .trueKw || word == .falseKw
  | _ => false

/-- A line break after the token does not end the statement. -/
def continuesLine (t : Token) : Bool :=
  match t.kind with
  | .operator => t.text != ['\x27'] && t.text != ['.', '.', '.']
  | .ternaryColon => true
  | .punctuation => t.text == [',']
  | _ => false

end Token

end CellBindings
