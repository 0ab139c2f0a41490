import CellBindings.Grammar.Block

/-!
Arguments of calls and indices, comprehensions, and the names that loops bind.
-/

namespace CellBindings.Grammar

open CellBindings.Parser

def comma : Parser Token := punctuation ','

def name : Parser Node := leaf .identifier <$> kind .identifier

def forBinding : Parser Node := do
  let target ← rule Row.typed
  let _ ← keyword .inKw <|> operator ['='] <|> operator ['∈']
  let iterable ← rule Row.ternary
  return .wrap .forBinding [target, iterable]

def forBindings : Parser (List Node) := separated1 forBinding comma

def forClause : Parser Node := do
  let t ← keyword .forKw
  let bindings ← forBindings
  return ⟨.forClause, upToLast t bindings, bindings⟩

def ifClause : Parser Node := do
  let t ← keyword .ifKw
  let condition ← rule Row.arrow
  return ⟨.ifClause, upTo t.span.start condition, [condition]⟩

/-- A body with at least one `for` behind it. -/
def comprehension (kind : Kind) : Parser Node := do
  let body ← rule Row.arrow
  let first ← forClause
  let rest ← many (forClause <|> ifClause)
  return .wrap kind (body :: first :: rest)

/-- A value, labelled or not. -/
def callItem : Parser Node :=
  (do
    let label ← rule Row.typed
    let _ ← operator ['=']
    let value ← rule Row.arrow
    return .wrap .keywordArgument [label, value]) <|>
  rule Row.arrow

/-- Items with commas between them, and perhaps one behind the last. -/
def commaList (item : Parser Node) : Parser (List Node) := do
  let items ← separated item comma
  let _ ← option comma
  return items

def callArguments : Parser Arguments :=
  (do
    let generator ← comprehension .generator
    return ⟨[generator], none⟩) <|>
  (do
    let positional ← commaList callItem
    let keywords ← option (do
      let semicolon ← punctuation ';'
      let items ← commaList callItem
      return (semicolon, items))
    return ⟨positional, keywords⟩)

def indexArguments : Parser (List Node) :=
  (do
    let node ← comprehension .comprehension
    return [node]) <|>
  commaList (rule Row.arrow)

/-- Arguments in the brackets that `first` opens. -/
def argumentList (first : Parser Token) : Parser Node := do
  let first ← first
  let arguments ← callArguments
  let last ← punctuation ')'
  return arguments.toNode first last

def doClause : Parser Node := do
  let first ← keyword .doKw
  let parameters ← placed .parameterList first.span.stop <$> separated (rule Row.arrow) comma
  let body ← block
  let last ← keyword .endKw
  return bracketed .doClause first last [parameters, placeBlock body parameters.span.stop]

end CellBindings.Grammar
