import CellBindings.Grammar.Chart
import CellBindings.Grammar.Shape

/-!
Blocks of statements. A statement counts only if a separator or the end of the block follows; what
else stands between two separators is one unread leaf, so a block can be read from any tokens.
-/

namespace CellBindings.Grammar

open CellBindings.Parser

def isSeparator (t : Token) : Bool := t.kind == .newline || t.isPunctuation ';'

/-- Words that end a block or the part of it before them. -/
def isBlockEnd (t : Token) : Bool :=
  t.isKeyword .endKw || t.isKeyword .elseKw || t.isKeyword .elseifKw || t.isKeyword .catchKw ||
    t.isKeyword .finallyKw

def separator : Parser Token := token isSeparator

def blockItem : Parser Node :=
  (do
    let node ← rule Row.statement
    ahead (token fun t => isSeparator t || isBlockEnd t)
    return node) <|>
  (do
    let tokens ← many1 (token fun t => !isSeparator t && !isBlockEnd t)
    return unread tokens)

def block : Parser Node := do
  let _ ← many separator
  let items ← separated blockItem (many1 separator)
  let _ ← many separator
  return .wrap .block items

end CellBindings.Grammar
