import CellBindings.Text.Span
import CellBindings.Tree.Kind

/-!
Syntax trees: a node has a kind, a span and children in source order. The pre-order of a tree lists
each node before its children.
-/

namespace CellBindings

structure Node where
  kind : Kind
  span : Span
  children : List Node
  deriving BEq, Repr

namespace Node

def leaf (kind : Kind) (span : Span) : Node := ⟨kind, span, []⟩

/-- The span over all nodes of a list; empty at the start of the text if there are none. -/
def coverAll : List Node → Span
  | [] => .emptyAt 0
  | first :: rest => rest.foldl (fun span node => span.cover node.span) first.span

/-- A node that reaches over its children. -/
def wrap (kind : Kind) (children : List Node) : Node := ⟨kind, coverAll children, children⟩

mutual

def preorder : Node → List Node
  | ⟨kind, span, children⟩ => ⟨kind, span, children⟩ :: preorderAll children

def preorderAll : List Node → List Node
  | [] => []
  | node :: rest => preorder node ++ preorderAll rest

end

/-- Number of nodes. -/
def size (node : Node) : Nat := node.preorder.length

def hasErrors (node : Node) : Bool := node.preorder.any (·.kind == .error)

def child? (node : Node) (index : Nat) : Option Node := node.children[index]?

def childOfKind? (node : Node) (kind : Kind) : Option Node := node.children.find? (·.kind == kind)

/-- The node reached by following child indices. -/
def descend? : Node → List Nat → Option Node
  | node, [] => some node
  | node, index :: path => (node.child? index).bind (·.descend? path)

theorem preorder_eq (node : Node) : node.preorder = node :: preorderAll node.children := by
  cases node
  rw [preorder]

theorem preorderAll_eq (nodes : List Node) : preorderAll nodes = nodes.flatMap preorder := by
  induction nodes with
  | nil => rw [preorderAll, List.flatMap_nil]
  | cons node nodes ih => rw [preorderAll, List.flatMap_cons, ih]

theorem mem_preorder {n node : Node} :
    n ∈ node.preorder ↔ n = node ∨ ∃ child ∈ node.children, n ∈ child.preorder := by
  rw [preorder_eq, preorderAll_eq, List.mem_cons, List.mem_flatMap]

/-- Induction over trees, with the property of all children. -/
theorem induct {P : Node → Prop}
    (node : ∀ kind span children, (∀ child ∈ children, P child) → P ⟨kind, span, children⟩)
    (root : Node) : P root := by
  refine @Node.rec P (fun nodes => ∀ child ∈ nodes, P child) node ?_ ?_ root
  · intro child hc
    cases hc
  · intro first rest hf hr child hc
    rcases List.mem_cons.mp hc with rfl | hc
    · exact hf
    · exact hr child hc

end Node

end CellBindings
