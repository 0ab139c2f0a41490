import CellBindings.Text.Blank

/-!
Spelling of names and operators: which characters make up a name, and the operators with the rule
that the longest one wins. An operator with a leading dot acts on each element.
-/

namespace CellBindings

/-- The operators without their dotted forms. -/
def operators : List Text :=
  [['>', '>', '>', '='], ['>', '>', '>'], ['>', '>', '='], ['<', '<', '='], ['=', '=', '='],
    ['!', '=', '='], ['.', '.', '.'], ['/', '/', '='], ['-', '-', '>'], ['=', '='], ['!', '='],
    ['<', '='], ['>', '='], ['<', '<'], ['>', '>'], ['&', '&'], ['|', '|'], ['-', '>'],
    ['=', '>'], [':', ':'], ['<', ':'], ['>', ':'], ['|', '>'], ['<', '|'], ['+', '='],
    ['-', '='], ['*', '='], ['/', '='], ['\\', '='], ['^', '='], ['%', '='], ['|', '='],
    ['&', '='], ['/', '/'], ['.', '.'], ['÷', '='], ['⊻', '='], ['+'], ['-'], ['*'], ['/'],
    ['\\'], ['^'], ['%'], ['='], ['<'], ['>'], ['!'], ['~'], ['&'], ['|'], [':'], ['?'], ['$'],
    ['.'], ['÷'], ['⊻'], ['∈'], ['∉'], ['∋'], ['≤'], ['≥'], ['≠'], ['≡'], ['≢'], ['≈'], ['∘'],
    ['⊆'], ['⊂'], ['⊇'], ['⊃'], ['∪'], ['∩'], ['×'], ['⋅'], ['√'], ['∛'], ['¬'], ['±'], ['∓'],
    ['⊗'], ['⊕'], ['→'], ['←'], ['↔'], ['∧'], ['∨']]

/-- Operators that never take a leading dot. -/
def undottable : List Text :=
  [[':'], [':', ':'], ['$'], ['?'], ['-', '>'], ['<', ':'], ['>', ':'], ['.']]

/-- A character outside ASCII that starts an operator. -/
def isOperatorChar (c : Char) : Bool :=
  0x80 ≤ c.toNat && operators.any fun op => op.head? == some c

/-- An underscore, an ASCII letter, or any character outside ASCII that is no blank, no control
character and starts no operator. -/
def isNameStart (c : Char) : Bool :=
  c == '_' || c.isAlpha ||
    (0xA0 ≤ c.toNat && !isBlank c && !isOperatorChar c)

def isNameChar (c : Char) : Bool := isNameStart c || c.isDigit

namespace Text

/-- The longest of the given spellings that the text starts with. -/
def longest? (spellings : List Text) (text : Text) : Option Text :=
  (spellings.filter (·.isPrefixOf text)).foldl
    (fun best op => if (best.getD []).length < op.length then some op else best) none

def operator? (text : Text) : Option Text := longest? operators text

def dottedOperator? : Text → Option Text
  | '.' :: rest =>
    if rest.head? == some '.' then none
    else (operator? rest).bind fun op => if undottable.contains op then none else some ('.' :: op)
  | _ => none

/-- Splits off the longest name. An exclamation mark belongs to a name unless `=` follows it. -/
def cutName : Text → Text × Text
  | [] => ([], [])
  | c :: cs =>
    if (c == '!' && cs.head? != some '=') || isNameChar c then
      let (name, rest) := cutName cs
      (c :: name, rest)
    else ([], c :: cs)

/-- The text goes on, after at least one blank or tab, with exactly this word. -/
def followedBy (word : Text) (text : Text) : Bool :=
  let rest := text.dropWhile fun c => c == ' ' || c == '\t'
  rest.length < text.length && word.isPrefixOf rest &&
    !(rest.drop word.length).head?.any isNameChar

theorem cutName_append (text : Text) : (cutName text).1 ++ (cutName text).2 = text := by
  induction text with
  | nil => rfl
  | cons c cs ih =>
    simp only [cutName]
    split
    · simp [ih]
    · rfl

end Text

end CellBindings
