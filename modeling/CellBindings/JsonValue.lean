/-!
JSON values with object members in a chosen order, and their text. The compact form has no blanks.
The indented form has one item or member a line, two blanks for each level, and keeps an empty list
or object in one piece.
-/

namespace CellBindings

inductive JsonValue where
  | bool (value : Bool)
  | number (value : Nat)
  | string (value : String)
  | array (items : List JsonValue)
  | object (members : List (String × JsonValue))

namespace JsonValue

inductive Layout where
  | compact | indented
  deriving DecidableEq, Repr

/-- The short escapes of control characters. -/
def shortEscapes : List (Char × Char) :=
  [('\x22', '\x22'), ('\\', '\\'), ('\x08', 'b'), ('\x0c', 'f'), ('\n', 'n'), ('\r', 'r'),
    ('\t', 't')]

/-- Only quotes, backslashes and control characters below the blank are escaped. -/
def escape (c : Char) : List Char :=
  match shortEscapes.lookup c with
  | some letter => ['\\', letter]
  | none =>
    if c.toNat < 0x20 then
      ['\\', 'u', '0', '0', Nat.digitChar (c.toNat / 16), Nat.digitChar (c.toNat % 16)]
    else [c]

def quote (s : String) : String := "\x22" ++ String.ofList (s.toList.flatMap escape) ++ "\x22"

namespace Layout

/-- What separates the parts of a list or object at a level. -/
def newline : Layout → Nat → String
  | .compact, _ => ""
  | .indented, level => "\n" ++ String.ofList (List.replicate (2 * level) ' ')

def colon : Layout → String
  | .compact => ":"
  | .indented => ": "

def bracketed (layout : Layout) (level : Nat) (opening closing : String) (parts : List String) :
    String :=
  if parts.isEmpty then opening ++ closing
  else
    let inner := layout.newline (level + 1)
    opening ++ inner ++ String.intercalate ("," ++ inner) parts ++ layout.newline level ++ closing

end Layout

mutual

def renderAt (layout : Layout) (level : Nat) : JsonValue → String
  | .bool value => if value then "true" else "false"
  | .number value => Nat.repr value
  | .string value => quote value
  | .array items => layout.bracketed level "[" "]" (renderItems layout (level + 1) items)
  | .object members =>
    layout.bracketed level "\x7b" "\x7d" (renderMembers layout (level + 1) members)

def renderItems (layout : Layout) (level : Nat) : List JsonValue → List String
  | [] => []
  | item :: rest => renderAt layout level item :: renderItems layout level rest

def renderMembers (layout : Layout) (level : Nat) : List (String × JsonValue) → List String
  | [] => []
  | (key, value) :: rest =>
    (quote key ++ layout.colon ++ renderAt layout level value) :: renderMembers layout level rest

end

def render (layout : Layout) (value : JsonValue) : String := renderAt layout 0 value

/-- The text of a value with a line break after it. -/
def renderLine (layout : Layout) (value : JsonValue) : String := render layout value ++ "\n"

end JsonValue

end CellBindings
