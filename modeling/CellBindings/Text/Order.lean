import CellBindings.Text.Basic

/-!
Order of names. Names are compared character by character, which is also the order of their UTF-8
bytes.
-/

namespace CellBindings.Text

/-- Strict order of names. -/
def precedes : Text → Text → Bool
  | _, [] => false
  | [], _ :: _ => true
  | c :: cs, d :: ds => c < d || (c == d && precedes cs ds)

/-- Puts a name into a sorted list, unless it is there. -/
def insertSorted (name : Text) : List Text → List Text
  | [] => [name]
  | key :: rest =>
    if precedes name key then name :: key :: rest
    else if key = name then key :: rest
    else key :: insertSorted name rest

/-- The names of a list in order, each once. -/
def distinct (names : List Text) : List Text := names.foldr insertSorted []

/-- Puts a named item before the first that does not precede it. -/
def insertByName {α : Type} (item : Text × α) : List (Text × α) → List (Text × α)
  | [] => [item]
  | other :: rest =>
    if precedes other.1 item.1 then other :: insertByName item rest else item :: other :: rest

/-- Items in the order of their names. -/
def sortByName {α : Type} (items : List (Text × α)) : List (Text × α) :=
  items.foldr insertByName []

end CellBindings.Text
