/-!
Kinds of syntax tree nodes. A leaf kind never has children in a tree made by the grammar; the text
of a node is found through its span.
-/

namespace CellBindings

inductive Kind where
  | sourceFile | block
  /-- What could not be read. -/
  | error
  | identifier | operator | integerLiteral | floatLiteral | stringLiteral | charLiteral
  | booleanLiteral
  /-- A colon with a name, keyword or operator right behind it. -/
  | symbol
  /-- A colon on its own. -/
  | colon
  /-- `end` or `begin` inside an index. -/
  | indexKeyword
  /-- An at sign with a name. -/
  | macroIdentifier
  | assignment | compoundAssignment | binaryExpression | unaryExpression | ternaryExpression
  | rangeExpression
  /-- A value with a type behind two colons. -/
  | typedExpression
  /-- A type behind two colons, without a value. -/
  | typeClause
  | parenthesizedExpression | tupleExpression | callExpression
  /-- A call on each element. -/
  | broadcastCall
  | argumentList
  /-- The arguments behind a semicolon. -/
  | keywordArguments
  /-- A labelled value in an argument list. -/
  | keywordArgument
  | indexExpression | fieldExpression | curlyExpression | splatExpression | adjointExpression
  | arrowFunction | doClause | parameterList | vectorExpression | matrixExpression | matrixRow
  | comprehension | generator | forClause | ifClause | forBinding
  /-- A number directly before its factor. -/
  | juxtaposition
  /-- A dollar sign with a name or parenthesis. -/
  | interpolation
  /-- A colon with a parenthesis. -/
  | quoteExpression
  | macroCall | whereExpression | bracesExpression | functionDefinition | signature
  | macroDefinition | letStatement | letBindings | forStatement | whileStatement | ifStatement
  | elseifClause | elseClause | tryStatement | catchClause | finallyClause | beginBlock
  | quoteStatement | structDefinition | typeHead | abstractDefinition | primitiveDefinition
  | moduleDefinition | importStatement | usingStatement | importPath
  /-- A path and the names taken from it. -/
  | selectedImport
  /-- A path and the name it is given. -/
  | importAlias
  | constStatement | globalStatement | localStatement | returnStatement | breakStatement
  | continueStatement | exportStatement
  deriving DecidableEq, Repr

namespace Kind

/-- The name of a kind in outlines. -/
def name : Kind → String
  | .sourceFile => "SourceFile"
  | .block => "Block"
  | .error => "Error"
  | .identifier => "Identifier"
  | .operator => "Operator"
  | .integerLiteral => "IntegerLiteral"
  | .floatLiteral => "FloatLiteral"
  | .stringLiteral => "StringLiteral"
  | .charLiteral => "CharLiteral"
  | .booleanLiteral => "BooleanLiteral"
  | .symbol => "Symbol"
  | .colon => "Colon"
  | .indexKeyword => "IndexKeyword"
  | .macroIdentifier => "MacroIdentifier"
  | .assignment => "Assignment"
  | .compoundAssignment => "CompoundAssignment"
  | .binaryExpression => "BinaryExpression"
  | .unaryExpression => "UnaryExpression"
  | .ternaryExpression => "TernaryExpression"
  | .rangeExpression => "RangeExpression"
  | .typedExpression => "TypedExpression"
  | .typeClause => "TypeClause"
  | .parenthesizedExpression => "ParenthesizedExpression"
  | .tupleExpression => "TupleExpression"
  | .callExpression => "CallExpression"
  | .broadcastCall => "BroadcastCall"
  | .argumentList => "ArgumentList"
  | .keywordArguments => "KeywordArguments"
  | .keywordArgument => "KeywordArgument"
  | .indexExpression => "IndexExpression"
  | .fieldExpression => "FieldExpression"
  | .curlyExpression => "CurlyExpression"
  | .splatExpression => "SplatExpression"
  | .adjointExpression => "AdjointExpression"
  | .arrowFunction => "ArrowFunction"
  | .doClause => "DoClause"
  | .parameterList => "ParameterList"
  | .vectorExpression => "VectorExpression"
  | .matrixExpression => "MatrixExpression"
  | .matrixRow => "MatrixRow"
  | .comprehension => "Comprehension"
  | .generator => "Generator"
  | .forClause => "ForClause"
  | .ifClause => "IfClause"
  | .forBinding => "ForBinding"
  | .juxtaposition => "Juxtaposition"
  | .interpolation => "Interpolation"
  | .quoteExpression => "QuoteExpression"
  | .macroCall => "MacroCall"
  | .whereExpression => "WhereExpression"
  | .bracesExpression => "BracesExpression"
  | .functionDefinition => "FunctionDefinition"
  | .signature => "Signature"
  | .macroDefinition => "MacroDefinition"
  | .letStatement => "LetStatement"
  | .letBindings => "LetBindings"
  | .forStatement => "ForStatement"
  | .whileStatement => "WhileStatement"
  | .ifStatement => "IfStatement"
  | .elseifClause => "ElseifClause"
  | .elseClause => "ElseClause"
  | .tryStatement => "TryStatement"
  | .catchClause => "CatchClause"
  | .finallyClause => "FinallyClause"
  | .beginBlock => "BeginBlock"
  | .quoteStatement => "QuoteStatement"
  | .structDefinition => "StructDefinition"
  | .typeHead => "TypeHead"
  | .abstractDefinition => "AbstractDefinition"
  | .primitiveDefinition => "PrimitiveDefinition"
  | .moduleDefinition => "ModuleDefinition"
  | .importStatement => "ImportStatement"
  | .usingStatement => "UsingStatement"
  | .importPath => "ImportPath"
  | .selectedImport => "SelectedImport"
  | .importAlias => "ImportAlias"
  | .constStatement => "ConstStatement"
  | .globalStatement => "GlobalStatement"
  | .localStatement => "LocalStatement"
  | .returnStatement => "ReturnStatement"
  | .breakStatement => "BreakStatement"
  | .continueStatement => "ContinueStatement"
  | .exportStatement => "ExportStatement"

def isLeaf : Kind → Bool
  | .identifier | .operator | .integerLiteral | .floatLiteral | .charLiteral | .booleanLiteral
  | .symbol | .colon | .indexKeyword | .macroIdentifier => true
  | _ => false

/-- All kinds, in the order of their declaration. -/
def all : List Kind :=
  [.sourceFile, .block, .error, .identifier, .operator, .integerLiteral, .floatLiteral,
    .stringLiteral, .charLiteral, .booleanLiteral, .symbol, .colon, .indexKeyword,
    .macroIdentifier, .assignment, .compoundAssignment, .binaryExpression, .unaryExpression,
    .ternaryExpression, .rangeExpression, .typedExpression, .typeClause, .parenthesizedExpression,
    .tupleExpression, .callExpression, .broadcastCall, .argumentList, .keywordArguments,
    .keywordArgument, .indexExpression, .fieldExpression, .curlyExpression, .splatExpression,
    .adjointExpression, .arrowFunction, .doClause, .parameterList, .vectorExpression,
    .matrixExpression, .matrixRow, .comprehension, .generator, .forClause, .ifClause, .forBinding,
    .juxtaposition, .interpolation, .quoteExpression, .macroCall, .whereExpression,
    .bracesExpression, .functionDefinition, .signature, .macroDefinition, .letStatement,
    .letBindings, .forStatement, .whileStatement, .ifStatement, .elseifClause, .elseClause,
    .tryStatement, .catchClause, .finallyClause, .beginBlock, .quoteStatement, .structDefinition,
    .typeHead, .abstractDefinition, .primitiveDefinition, .moduleDefinition, .importStatement,
    .usingStatement, .importPath, .selectedImport, .importAlias, .constStatement,
    .globalStatement, .localStatement, .returnStatement, .breakStatement, .continueStatement,
    .exportStatement]

def ofName? (name : String) : Option Kind := all.find? (·.name == name)

end Kind

end CellBindings
