import CellBindings.Tree.Table

/-!
Cursors walk the subtree under the node they start at and never leave it: a cursor remembers the
child indices that lead to its node, and cannot go up when there are none.
-/

namespace CellBindings

structure Cursor where
  node : Nat
  /-- Child indices from the start, the last one first. -/
  path : List Nat
  deriving DecidableEq, Repr

namespace Cursor

def startAt (node : Nat) : Cursor := ⟨node, []⟩

def depth (cursor : Cursor) : Nat := cursor.path.length

def firstChild? (table : Table) (cursor : Cursor) : Option Cursor :=
  (table.child? cursor.node 0).map fun child => ⟨child, 0 :: cursor.path⟩

def nextSibling? (table : Table) (cursor : Cursor) : Option Cursor :=
  match cursor.path with
  | [] => none
  | index :: path =>
    match table.parent? cursor.node with
    | none => none
    | some parent =>
      (table.child? parent (index + 1)).map fun sibling => ⟨sibling, (index + 1) :: path⟩

def parent? (table : Table) (cursor : Cursor) : Option Cursor :=
  match cursor.path with
  | [] => none
  | _ :: path => (table.parent? cursor.node).map fun parent => ⟨parent, path⟩

end Cursor

end CellBindings
