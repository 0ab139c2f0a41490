import CellBindings.Token.Basic
import CellBindings.Tree.Basic

/-!
Shapes of nodes that several rules build. The span of a bracketed node runs from bracket to bracket,
that of other nodes over their parts.
-/

namespace CellBindings.Grammar

def leaf (kind : Kind) (t : Token) : Node := .leaf kind t.span

def between (first last : Token) : Span := ⟨first.span.start, last.span.stop⟩

/-- From an offset to the end of a node, which may lie before it if the node is empty. -/
def upTo (start : Nat) (last : Node) : Span := ⟨start, max last.span.stop start⟩

/-- From a token to the end of the last node, the token alone if there is none. -/
def upToLast (t : Token) (nodes : List Node) : Span :=
  match nodes.getLast? with
  | none => t.span
  | some last => upTo t.span.start last

def bracketed (kind : Kind) (first last : Token) (children : List Node) : Node :=
  ⟨kind, between first last, children⟩

/-- Gives an empty block its place. -/
def placeBlock (block : Node) (offset : Nat) : Node :=
  if block.children.isEmpty then { block with span := .emptyAt offset } else block

/-- A list of parts that may be empty, in which case it stands at an offset. -/
def placed (kind : Kind) (offset : Nat) (children : List Node) : Node :=
  if children.isEmpty then ⟨kind, .emptyAt offset, []⟩ else .wrap kind children

/-- Tokens that could not be read. -/
def unread (tokens : List Token) : Node :=
  .leaf .error ⟨(tokens.head?.map (·.span.start)).getD 0,
    (tokens.getLast?.map (·.span.stop)).getD 0⟩

def binary (left : Node) (op : Token) (right : Node) : Node :=
  .wrap .binaryExpression [left, leaf .operator op, right]

def foldBinary (first : Node) (rest : List (Token × Node)) : Node :=
  rest.foldl (fun left (op, right) => binary left op right) first

def assignment (left : Node) (op : Token) (right : Node) : Node :=
  .wrap (if op.text == ['='] then .assignment else .compoundAssignment)
    [left, leaf .operator op, right]

/-- Arguments before and behind the semicolon, with that semicolon if there is one. -/
structure Arguments where
  positional : List Node
  keywords : Option (Token × List Node)

def keywordArguments (semicolon : Token) (arguments : List Node) : Node :=
  ⟨.keywordArguments, upToLast semicolon arguments, arguments⟩

def Arguments.toNode (arguments : Arguments) (first last : Token) : Node :=
  bracketed .argumentList first last
    (arguments.positional ++
      (arguments.keywords.map fun (semicolon, nodes) => keywordArguments semicolon nodes).toList)

/-- What may follow an operand without a gap in meaning: calls, indices, fields and the like. -/
inductive Suffix where
  | call (arguments : Node) (block : Option Node)
  | broadcast (arguments : Node)
  | index (arguments : List Node) (stop : Nat)
  | field (name : Node)
  | curly (arguments : List Node) (stop : Nat)
  | adjoint (stop : Nat)
  | splat (stop : Nat)

def Suffix.apply (base : Node) : Suffix → Node
  | .call arguments block => .wrap .callExpression (base :: arguments :: block.toList)
  | .broadcast arguments => .wrap .broadcastCall [base, arguments]
  | .index arguments stop => ⟨.indexExpression, ⟨base.span.start, stop⟩, base :: arguments⟩
  | .field name => .wrap .fieldExpression [base, name]
  | .curly arguments stop => ⟨.curlyExpression, ⟨base.span.start, stop⟩, base :: arguments⟩
  | .adjoint stop => ⟨.adjointExpression, ⟨base.span.start, stop⟩, [base]⟩
  | .splat stop => ⟨.splatExpression, ⟨base.span.start, stop⟩, [base]⟩

end CellBindings.Grammar
