import CellBindings.Text.Basic
import CellBindings.Tree.Basic

/-!
The table of a tree: its nodes in pre-order, numbered from zero, each with the numbers of its parent
and its children. The table holds nothing that the tree does not, but can be walked in every
direction.
-/

namespace CellBindings

structure Entry where
  kind : Kind
  span : Span
  parent : Option Nat
  children : List Nat
  deriving DecidableEq, Repr

def Entry.describe (entry : Entry) : String := s!"{entry.kind.name}@{entry.span.render}"

structure Table where
  entries : List Entry
  deriving DecidableEq, Repr

namespace Table

/-- The numbers of siblings, the first of which has number `id`. -/
def siblingIds (id : Nat) : List Node → List Nat
  | [] => []
  | node :: rest => id :: siblingIds (id + node.size) rest

mutual

/-- The entries of a subtree whose root has number `id`. -/
def flatten (id : Nat) (parent : Option Nat) : Node → List Entry
  | ⟨kind, span, children⟩ =>
    ⟨kind, span, parent, siblingIds (id + 1) children⟩ :: flattenAll (id + 1) (some id) children

def flattenAll (id : Nat) (parent : Option Nat) : List Node → List Entry
  | [] => []
  | node :: rest => flatten id parent node ++ flattenAll (id + node.size) parent rest

end

def ofNode (root : Node) : Table := ⟨flatten 0 none root⟩

def size (table : Table) : Nat := table.entries.length

def isEmpty (table : Table) : Bool := table.entries.isEmpty

def hasErrors (table : Table) : Bool := table.entries.any (·.kind == .error)

def entry? (table : Table) (id : Nat) : Option Entry := table.entries[id]?

def parent? (table : Table) (id : Nat) : Option Nat := (table.entry? id).bind (·.parent)

def children (table : Table) (id : Nat) : List Nat := ((table.entry? id).map (·.children)).getD []

def child? (table : Table) (id index : Nat) : Option Nat := (table.children id)[index]?

def childOfKind? (table : Table) (id : Nat) (kind : Kind) : Option Nat :=
  (table.children id).find? fun child => (table.entry? child).any (·.kind == kind)

/-- The node reached from `id` by following child indices. -/
def descend? (table : Table) : Nat → List Nat → Option Nat
  | id, [] => some id
  | id, index :: path => (table.child? id index).bind (table.descend? · path)

/-- The text under a node, if the document has one there. -/
def text? (table : Table) (id : Nat) (document : Text) : Option Text :=
  (table.entry? id).bind fun entry => document.slice? entry.span

/-- Visits the nodes of a stack and what is under them, for at most `bound` steps. -/
def visit (table : Table) : Nat → List Nat → List Nat
  | 0, _ => []
  | _ + 1, [] => []
  | bound + 1, id :: stack => id :: visit table bound (table.children id ++ stack)

/-- A node and all nodes under it, in pre-order. -/
def descendants (table : Table) (id : Nat) : List Nat := visit table table.size [id]

end Table

end CellBindings
