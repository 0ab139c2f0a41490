import CellBindings.Grammar.Argument
import CellBindings.Grammar.Operator

/-!
Operands: names, literals, brackets, quotations, macro calls, and the constructs that a block word
opens and `end` closes.
-/

namespace CellBindings.Grammar

open CellBindings.Parser

/-- A parenthesis: empty, keyword arguments alone, a generator, a tuple, one statement, or several
statements. -/
def paren : Parser Node :=
  (do
    let first ← punctuation '('
    let last ← punctuation ')'
    return bracketed .tupleExpression first last []) <|>
  (do
    let first ← punctuation '('
    let semicolon ← punctuation ';'
    let items ← commaList callItem
    let last ← punctuation ')'
    return bracketed .tupleExpression first last [keywordArguments semicolon items]) <|>
  (do
    let first ← punctuation '('
    let generator ← comprehension .generator
    let last ← punctuation ')'
    return bracketed .generator first last generator.children) <|>
  (do
    let first ← punctuation '('
    let item ← callItem
    let _ ← comma
    let items ← commaList callItem
    let last ← punctuation ')'
    return bracketed .tupleExpression first last (item :: items)) <|>
  (do
    let first ← punctuation '('
    let node ← rule Row.statement
    let last ← punctuation ')'
    return bracketed .parenthesizedExpression first last [node]) <|>
  (do
    let first ← punctuation '('
    let nodes ← separated1 (rule Row.statement) (punctuation ';')
    let _ ← option (punctuation ';')
    let last ← punctuation ')'
    return bracketed .parenthesizedExpression first last [.wrap .block nodes])

def matrixRow : Parser Node := .wrap .matrixRow <$> many1 (rule Row.arrow)

/-- A square bracket: empty, a comprehension, a vector or a matrix. -/
def bracket : Parser Node :=
  (do
    let first ← punctuation '['
    let last ← punctuation ']'
    return bracketed .vectorExpression first last []) <|>
  (do
    let first ← punctuation '['
    let node ← comprehension .comprehension
    let last ← punctuation ']'
    return bracketed .comprehension first last node.children) <|>
  (do
    let first ← punctuation '['
    let items ← separated1 (rule Row.arrow) comma
    let _ ← option comma
    let last ← punctuation ']'
    return bracketed .vectorExpression first last items) <|>
  (do
    let first ← punctuation '['
    let rows ← separated1 matrixRow (punctuation ';')
    let _ ← option (punctuation ';')
    let last ← punctuation ']'
    return bracketed .matrixExpression first last rows)

def braces : Parser Node := do
  let first ← punctuation '{'
  let items ← commaList (rule Row.arrow)
  let last ← punctuation '}'
  return bracketed .bracesExpression first last items

def interpolation : Parser Node := do
  let mark ← operator ['$']
  let node ← name <|> rule Row.paren
  return ⟨.interpolation, upTo mark.span.start node, [node]⟩

def stringLiteral : Parser Node := do
  let first ← kind .stringStart
  let parts ← many ((some <$> interpolation) <|> ((fun _ => none) <$> kind .stringChunk))
  let last ← kind .stringEnd
  return bracketed .stringLiteral first last (parts.filterMap id)

def quotation : Parser Node := do
  let colon ← operator [':']
  ahead (tight '(')
  let node ← rule Row.paren
  return ⟨.quoteExpression, upTo colon.span.start node, [node]⟩

def isSymbolName (t : Token) : Bool :=
  !t.spaceBefore &&
    match t.kind with
    | .identifier | .keyword _ | .operator => true
    | _ => false

def symbol : Parser Node :=
  (do
    let colon ← operator [':']
    let t ← token isSymbolName
    return .leaf .symbol (between colon t)) <|>
  leaf .colon <$> operator [':']

/-- The factor right behind a number. -/
def factor : Parser Node :=
  leaf .identifier <$> token (fun t => t.kind == .identifier && !t.spaceBefore) <|>
  (do
    ahead (tight '(')
    rule Row.paren)

def number : Parser Node := do
  let literal ← leaf .integerLiteral <$> kind .integer <|> leaf .floatLiteral <$> kind .float
  let right ← option factor
  return match right with
    | none => literal
    | some right => .wrap .juxtaposition [literal, right]

/-- An operator as a value, where an argument ends behind it or a call starts. -/
def operatorValue : Parser Node := do
  let t ← token fun t => t.kind == .operator && !isAssignment t && t.text != ['.', '.', '.']
  ahead (comma <|> punctuation ')' <|> punctuation ']' <|> tight '(')
  return leaf .operator t

def macroName : Parser Node := leaf .macroIdentifier <$> kind .macroName

def fieldAccess (base field : Node) : Node := .wrap .fieldExpression [base, field]

/-- A macro, perhaps behind the path of its module. -/
def macroCallee : Parser Node :=
  (do
    let base ← name
    let path ← many (do
      let _ ← operator ['.']
      name)
    let _ ← operator ['.']
    let callee ← macroName
    return fieldAccess (path.foldl fieldAccess base) callee) <|>
  macroName

def macroCall : Parser Node :=
  (do
    let callee ← macroCallee
    let arguments ← argumentList (tight '(')
    return .wrap .macroCall [callee, arguments]) <|>
  (do
    let callee ← macroCallee
    let arguments ← many (rule Row.statement)
    return .wrap .macroCall (callee :: arguments))

/-- The head of a function or macro definition. -/
def signature : Parser Node := do
  let node ← rule Row.whereExpression
  return .wrap .signature [node]

/-- A definition with a head and a body, from its word to its `end`. -/
def definition (word : Keyword) (kind : Kind) (head : Parser Node) : Parser Node := do
  let first ← keyword word
  let head ← head
  let body ← block
  let last ← keyword .endKw
  return bracketed kind first last [head, placeBlock body head.span.stop]

/-- A body alone, from its word to its `end`. -/
def enclosed (word : Keyword) (kind : Kind) : Parser Node := do
  let first ← keyword word
  let body ← block
  let last ← keyword .endKw
  return bracketed kind first last [placeBlock body first.span.stop]

def letBlock : Parser Node := do
  let first ← keyword .letKw
  let bindings ← placed .letBindings first.span.stop <$> separated (rule Row.expression) comma
  let body ← block
  let last ← keyword .endKw
  return bracketed .letStatement first last [bindings, placeBlock body bindings.span.stop]

def forBlock : Parser Node := do
  let first ← keyword .forKw
  let bindings ← forBindings
  let body ← block
  let last ← keyword .endKw
  let offset := (bindings.getLast?.map (·.span.stop)).getD first.span.stop
  return bracketed .forStatement first last (bindings ++ [placeBlock body offset])

/-- A word with a body up to the next part of its construct. -/
def part (word : Keyword) (kind : Kind) : Parser Node := do
  let first ← keyword word
  let body ← block
  let body := placeBlock body first.span.stop
  return ⟨kind, upTo first.span.start body, [body]⟩

def elseifClause : Parser Node := do
  let first ← keyword .elseifKw
  let condition ← rule Row.arrow
  let body ← block
  let body := placeBlock body condition.span.stop
  return ⟨.elseifClause, upTo first.span.start body, [condition, body]⟩

def ifBlock : Parser Node := do
  let first ← keyword .ifKw
  let condition ← rule Row.arrow
  let body ← block
  let others ← many elseifClause
  let otherwise ← option (part .elseKw .elseClause)
  let last ← keyword .endKw
  return bracketed .ifStatement first last
    (condition :: placeBlock body condition.span.stop :: (others ++ otherwise.toList))

def catchClause : Parser Node := do
  let first ← keyword .catchKw
  let caught ← option name
  let body ← block
  let body := placeBlock body ((caught.map (·.span.stop)).getD first.span.stop)
  return ⟨.catchClause, upTo first.span.start body, caught.toList ++ [body]⟩

def tryBlock : Parser Node := do
  let first ← keyword .tryKw
  let body ← block
  let handler ← option catchClause
  let otherwise ← option (part .elseKw .elseClause)
  let cleanup ← option (part .finallyKw .finallyClause)
  let last ← keyword .endKw
  return bracketed .tryStatement first last
    (placeBlock body first.span.stop ::
      (handler.toList ++ (otherwise.toList ++ cleanup.toList)))

def blockConstruct : Parser Node :=
  definition .functionKw .functionDefinition signature <|>
  enclosed .beginKw .beginBlock <|>
  letBlock <|>
  forBlock <|>
  definition .whileKw .whileStatement (rule Row.arrow) <|>
  ifBlock <|>
  tryBlock <|>
  enclosed .quoteKw .quoteStatement

def atom : Parser Node :=
  macroCall <|>
  name <|>
  number <|>
  stringLiteral <|>
  leaf .charLiteral <$> kind .char <|>
  leaf .booleanLiteral <$> (keyword .trueKw <|> keyword .falseKw) <|>
  leaf .indexKeyword <$> kind .indexKeyword <|>
  quotation <|>
  symbol <|>
  interpolation <|>
  rule Row.paren <|>
  bracket <|>
  braces <|>
  blockConstruct <|>
  operatorValue

end CellBindings.Grammar
