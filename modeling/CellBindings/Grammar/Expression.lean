import CellBindings.Grammar.Atom

/-!
Expressions, from the tightest to the loosest: suffixes, type assertions, powers and prefix
operators, the levels of binary operators, conditionals, pairs, `where`, arrows and assignments.
-/

namespace CellBindings.Grammar

open CellBindings.Parser

def fieldName : Parser Node := name <|> interpolation <|> symbol

def suffix : Parser Suffix :=
  (do
    let arguments ← argumentList (tight '(')
    let block ← option doClause
    return .call arguments block) <|>
  (do
    let _ ← operator ['.']
    let arguments ← argumentList (tight '(')
    return .broadcast arguments) <|>
  (do
    let _ ← operator ['.']
    let field ← fieldName
    return .field field) <|>
  (do
    let _ ← tight '['
    let arguments ← indexArguments
    let last ← punctuation ']'
    return .index arguments last.span.stop) <|>
  (do
    let _ ← tight '{'
    let arguments ← commaList (rule Row.arrow)
    let last ← punctuation '}'
    return .curly arguments last.span.stop) <|>
  (fun t => .adjoint t.span.stop) <$> operator ['\x27'] <|>
  (fun t => .splat t.span.stop) <$> operator ['.', '.', '.']

def primary : Parser Node := do
  let base ← atom
  let suffixes ← many suffix
  return suffixes.foldl Suffix.apply base

def typed : Parser Node := do
  let value ← rule Row.primary
  let types ← many (do
    let _ ← operator [':', ':']
    rule Row.primary)
  return types.foldl (fun value type => .wrap .typedExpression [value, type]) value

def power : Parser Node := do
  let base ← rule Row.typed
  let raised ← option (do
    let op ← operator ['^'] <|> operator ['.', '^']
    let exponent ← rule Row.unary
    return (op, exponent))
  return foldBinary base raised.toList

def unary : Parser Node :=
  (do
    let op ← token (isAmong unaryOperators)
    let operand ← rule Row.unary
    return .wrap .unaryExpression [leaf .operator op, operand]) <|>
  (do
    let colons ← operator [':', ':']
    let type ← rule Row.unary
    return ⟨.typeClause, upTo colons.span.start type, [type]⟩) <|>
  power

/-- A chain of operands at one level. Ranges are one node, all other chains lean to the left. -/
def Level.combine (level : Level) (first : Node) (rest : List (Token × Node)) : Node :=
  if level = .range ∧ rest ≠ [] then .wrap .rangeExpression (first :: rest.map (·.2))
  else foldBinary first rest

/-- Chains of the given levels, the loosest first. -/
def chain : List Level → Parser Node
  | [] => rule Row.unary
  | level :: tighter => do
    let first ← chain tighter
    let rest ← many (do
      let op ← token level.accepts
      let operand ← chain tighter
      return (op, operand))
    return level.combine first rest

def ternary : Parser Node := do
  let condition ← chain Level.all
  let branches ← option (do
    let _ ← operator ['?']
    let yes ← rule Row.ternary
    let _ ← kind .ternaryColon
    let no ← rule Row.ternary
    return [yes, no])
  return match branches with
    | none => condition
    | some branches => .wrap .ternaryExpression (condition :: branches)

def pair : Parser Node := do
  let left ← rule Row.ternary
  let right ← option (do
    let op ← operator ['=', '>']
    let right ← rule Row.pair
    return (op, right))
  return foldBinary left right.toList

def whereExpression : Parser Node := do
  let inner ← rule Row.pair
  let clauses ← many (do
    let _ ← keyword .whereKw
    rule Row.pair)
  return if clauses.isEmpty then inner else .wrap .whereExpression (inner :: clauses)

def arrow : Parser Node := do
  let parameters ← rule Row.whereExpression
  let body ← option (do
    let _ ← operator ['-', '>']
    rule Row.expression)
  return match body with
    | none => parameters
    | some body => .wrap .arrowFunction [parameters, body]

/-- The right side of an assignment, with its operator. -/
def assigned (right : Parser Node) : Parser (Token × Node) := do
  let op ← token isAssignment
  let right ← right
  return (op, right)

def maybeAssigned (left : Node) : Option (Token × Node) → Node
  | none => left
  | some (op, right) => assignment left op right

/-- An expression without commas, perhaps an assignment. -/
def expression : Parser Node := do
  let left ← rule Row.arrow
  let right ← option (assigned (rule Row.expression))
  return maybeAssigned left right

/-- Expressions with commas between them make a tuple; so does a comma behind a single one. -/
def openTuple : Parser Node := do
  let first ← rule Row.arrow
  let rest ← many (do
    let _ ← comma
    rule Row.arrow)
  let trailing ← option comma
  let node := Node.wrap .tupleExpression (first :: rest)
  return match trailing with
    | some t => { node with span := ⟨node.span.start, t.span.stop⟩ }
    | none => if rest.isEmpty then first else node

/-- An expression as a statement, with open tuples on both sides of an assignment. -/
def assignmentExpression : Parser Node := do
  let left ← openTuple
  let right ← option (assigned (rule Row.assignment))
  return maybeAssigned left right

end CellBindings.Grammar
