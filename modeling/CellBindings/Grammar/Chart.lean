import CellBindings.Token.Basic
import CellBindings.Tree.Basic

/-!
Charts and parsers. A chart lists the tokens of a text from some position on, and for each token
what the rules of the grammar find there. The answers are computed when they are asked for and then
kept, so a rule is tried at most once at each token.

A parser reads a chart from its first row on. Choice is ordered: the second parser is tried, from
the same row, only if the first one fails.
-/

namespace CellBindings

/-- The tree that a rule finds and the number of tokens it takes. -/
abbrev Answer := Thunk (Option (Node × Nat))

def Answer.never : Answer := Thunk.mk fun _ => none

/-- A token with the answers of the rules that may start at it. -/
structure Row where
  token : Token
  paren : Answer
  primary : Answer
  typed : Answer
  unary : Answer
  ternary : Answer
  pair : Answer
  whereExpression : Answer
  arrow : Answer
  expression : Answer
  assignment : Answer
  statement : Answer

/-- A row before any rule has been tried. -/
def Row.bare (token : Token) : Row :=
  ⟨token, .never, .never, .never, .never, .never, .never, .never, .never, .never, .never, .never⟩

abbrev Chart := List Row

def Parser (α : Type) := Chart → Option (α × Chart)

namespace Parser

variable {α β : Type}

instance : Monad Parser where
  pure a := fun chart => some (a, chart)
  bind p f := fun chart =>
    match p chart with
    | none => none
    | some (a, rest) => f a rest

instance : Alternative Parser where
  failure := fun _ => none
  orElse p q := fun chart =>
    match p chart with
    | none => q () chart
    | some result => some result

/-- What a rule finds at the first row. -/
def rule (answer : Row → Answer) : Parser Node
  | [] => none
  | row :: rest => (answer row).get.map fun (node, count) => (node, (row :: rest).drop count)

/-- The answer of a parser at the start of a chart. -/
def answer (p : Parser Node) (chart : Chart) : Answer :=
  Thunk.mk fun _ => (p chart).map fun (node, rest) => (node, chart.length - rest.length)

def token (accepts : Token → Bool) : Parser Token
  | [] => none
  | row :: rest => if accepts row.token then some (row.token, rest) else none

def kind (k : Token.Kind) : Parser Token := token (·.kind == k)

def keyword (word : Keyword) : Parser Token := token (·.isKeyword word)

def operator (spelling : Text) : Parser Token := token (·.isOperator spelling)

def punctuation (c : Char) : Parser Token := token (·.isPunctuation c)

/-- A bracket with nothing before it. -/
def tight (c : Char) : Parser Token := token fun t => t.isPunctuation c && !t.spaceBefore

/-- Succeeds without reading if `p` would succeed. -/
def ahead (p : Parser α) : Parser Unit := fun chart => (p chart).map fun _ => ((), chart)

def endOfTokens : Parser Unit
  | [] => some ((), [])
  | _ :: _ => none

def option (p : Parser α) : Parser (Option α) := (some <$> p) <|> pure none

/-- As many `p` as there are, at most one for each row of `bound`. -/
def manyWithin (p : Parser α) : Chart → Chart → List α × Chart
  | [], chart => ([], chart)
  | _ :: bound, chart =>
    match p chart with
    | none => ([], chart)
    | some (a, rest) =>
      let (items, last) := manyWithin p bound rest
      (a :: items, last)

/-- As many `p` as there are. Each reads a token, so there are no more of them than rows. -/
def many (p : Parser α) : Parser (List α) := fun chart => some (manyWithin p chart chart)

def many1 (p : Parser α) : Parser (List α) := do
  let first ← p
  let rest ← many p
  return first :: rest

/-- One `p` or more. A separator that no further `p` follows is not read. -/
def separated1 (p : Parser α) (separator : Parser β) : Parser (List α) := do
  let first ← p
  let rest ← many (do
    let _ ← separator
    p)
  return first :: rest

def separated (p : Parser α) (separator : Parser β) : Parser (List α) :=
  separated1 p separator <|> pure []

end Parser

end CellBindings
