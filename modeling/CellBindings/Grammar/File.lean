import CellBindings.Token.Scanner
import CellBindings.Grammar.Statement

/-!
From a text to its tree. The chart of a token list is built from its end: the answers at a token
need only the answers of tighter rules there and the rows behind it. Reading a file never fails,
since what is no statement becomes an unread leaf.
-/

namespace CellBindings

open CellBindings.Parser

/-- A row learns what each rule finds, the tightest rule first. -/
def Row.build (t : Token) (rest : Chart) : Row :=
  let row := Row.bare t
  let row := { row with paren := answer Grammar.paren (row :: rest) }
  let row := { row with primary := answer Grammar.primary (row :: rest) }
  let row := { row with typed := answer Grammar.typed (row :: rest) }
  let row := { row with unary := answer Grammar.unary (row :: rest) }
  let row := { row with ternary := answer Grammar.ternary (row :: rest) }
  let row := { row with pair := answer Grammar.pair (row :: rest) }
  let row := { row with whereExpression := answer Grammar.whereExpression (row :: rest) }
  let row := { row with arrow := answer Grammar.arrow (row :: rest) }
  let row := { row with expression := answer Grammar.expression (row :: rest) }
  let row := { row with assignment := answer Grammar.assignmentExpression (row :: rest) }
  { row with statement := answer Grammar.statement (row :: rest) }

def Chart.ofTokens (tokens : List Token) : Chart :=
  tokens.foldr (fun t rest => Row.build t rest :: rest) []

namespace Grammar

def isError (t : Token) : Bool := t.kind == .error

def fileItem : Parser Node :=
  (do
    let node ← rule Row.statement
    ahead (token fun t => isSeparator t || isError t) <|> endOfTokens
    return node) <|>
  (do
    let tokens ← many1 (token fun t => !isSeparator t && !isError t)
    return unread tokens)

def file : Parser Node := do
  let _ ← many separator
  let items ← separated fileItem (many1 separator)
  let _ ← many separator
  let failure ← option (leaf .error <$> token isError)
  endOfTokens
  return .wrap .sourceFile (items ++ failure.toList)

end Grammar

/-- The tree of a text; its root spans the whole text. -/
def parse? (text : Text) : Option Node :=
  (Grammar.file (Chart.ofTokens (tokenizeRecovering text))).map fun (root, _) =>
    { root with span := ⟨0, Text.byteSize text⟩ }

/-- The tree of a text. Were the grammar to fail, the whole text would be unread. -/
def parse (text : Text) : Node :=
  (parse? text).getD (.leaf .error ⟨0, Text.byteSize text⟩)

end CellBindings
