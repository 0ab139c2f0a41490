import CellBindings.Grammar.Expression

/-!
Statements that start with a word of their own: type and module definitions, imports, declarations
and jumps.
-/

namespace CellBindings.Grammar

open CellBindings.Parser

def typeHead : Parser Node := do
  let node ← chain Level.fromComparison
  return .wrap .typeHead [node]

def structDefinition : Parser Node := do
  let mutability ← option (keyword .mutableKw)
  let word ← keyword .structKw
  let head ← typeHead
  let body ← block
  let last ← keyword .endKw
  return bracketed .structDefinition (mutability.getD word) last
    [head, placeBlock body head.span.stop]

def abstractDefinition : Parser Node := do
  let first ← keyword .abstractKw
  let _ ← keyword .typeKw
  let head ← typeHead
  let last ← keyword .endKw
  return bracketed .abstractDefinition first last [head]

def primitiveDefinition : Parser Node := do
  let first ← keyword .primitiveKw
  let _ ← keyword .typeKw
  let head ← typeHead
  let bits ← rule Row.arrow
  let last ← keyword .endKw
  return bracketed .primitiveDefinition first last [head, bits]

def moduleDefinition : Parser Node :=
  definition .moduleKw .moduleDefinition name <|>
  definition .baremoduleKw .moduleDefinition name

def importName : Parser Node := name <|> macroName <|> leaf .operator <$> kind .operator

/-- A dotted path, perhaps with dots before it. -/
def importPath : Parser Node := do
  let dots ← many (operator ['.'] <|> operator ['.', '.'] <|> operator ['.', '.', '.'])
  let first ← importName
  let rest ← many (do
    let _ ← operator ['.']
    importName)
  let start := (dots.head?.map (·.span.start)).getD first.span.start
  let stop := ((first :: rest).getLast?.map (·.span.stop)).getD start
  return ⟨.importPath, ⟨start, stop⟩, first :: rest⟩

def isAsWord (t : Token) : Bool := t.kind == .identifier && t.text == ['a', 's']

def importItem : Parser Node := do
  let path ← importPath
  let newName ← option (do
    let _ ← token isAsWord
    importName)
  return match newName with
    | none => path
    | some newName => .wrap .importAlias [path, newName]

def importItems : Parser (List Node) :=
  (do
    let path ← importPath
    let _ ← operator [':']
    let items ← separated1 importItem comma
    return [.wrap .selectedImport (path :: items)]) <|>
  separated1 importItem comma

def importStatement : Parser Node := do
  let word ← keyword .importKw <|> keyword .usingKw
  let items ← importItems
  let kind := if word.isKeyword .usingKw then Kind.usingStatement else .importStatement
  return ⟨kind, upToLast word items, items⟩

def exportStatement : Parser Node := do
  let word ← keyword .exportKw
  let names ← separated1 importName comma
  return ⟨.exportStatement, upToLast word names, names⟩

/-- A word that declares something about the expression behind it. -/
def declaration (word : Keyword) (kind : Kind) : Parser Node := do
  let word ← keyword word
  let node ← rule Row.assignment
  return ⟨kind, upTo word.span.start node, [node]⟩

def returnStatement : Parser Node := do
  let word ← keyword .returnKw
  let value ← option (rule Row.assignment)
  return ⟨.returnStatement, upToLast word value.toList, value.toList⟩

def keywordStatement : Parser Node :=
  structDefinition <|>
  abstractDefinition <|>
  primitiveDefinition <|>
  moduleDefinition <|>
  definition .macroKw .macroDefinition signature <|>
  importStatement <|>
  exportStatement <|>
  declaration .constKw .constStatement <|>
  declaration .globalKw .globalStatement <|>
  declaration .localKw .localStatement <|>
  returnStatement <|>
  leaf .breakStatement <$> keyword .breakKw <|>
  leaf .continueStatement <$> keyword .continueKw

def statement : Parser Node := keywordStatement <|> rule Row.assignment

end CellBindings.Grammar
