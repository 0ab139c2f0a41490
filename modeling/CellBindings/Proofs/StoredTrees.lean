import CellBindings.Tree.Table

/-!
Trees in tables. The entries of a subtree stand in a row, its root first, and below it the rows of
its children one behind the other. So the number of a node is its position in the pre-order, the
links between entries are those of the tree, and both reading a table back and walking down from one
of its nodes can be followed subtree by subtree.
-/

namespace CellBindings

namespace Node

theorem size_eq (node : Node) : node.size = (preorderAll node.children).length + 1 := by
  rw [size, preorder_eq, List.length_cons]

theorem size_pos (node : Node) : 0 < node.size := by
  rw [size_eq]
  exact Nat.succ_pos _

theorem length_preorderAll_cons (node : Node) (rest : List Node) :
    (preorderAll (node :: rest)).length = node.size + (preorderAll rest).length := by
  rw [preorderAll, List.length_append, size]

theorem preorderAll_append (front back : List Node) :
    preorderAll (front ++ back) = preorderAll front ++ preorderAll back := by
  rw [preorderAll_eq, List.flatMap_append, ← preorderAll_eq, ← preorderAll_eq]

/-- A position below siblings is a position below one of them. -/
theorem exists_sibling {nodes : List Node} {n : Nat} (inside : n < (preorderAll nodes).length) :
    ∃ front node back, nodes = front ++ node :: back ∧ (preorderAll front).length ≤ n ∧
      n < (preorderAll front).length + node.size := by
  induction nodes generalizing n with
  | nil => simp [preorderAll] at inside
  | cons node rest ih =>
    rw [length_preorderAll_cons] at inside
    by_cases first : n < node.size
    · exact ⟨[], node, rest, rfl, Nat.zero_le n, by simpa [preorderAll] using first⟩
    · obtain ⟨front, other, back, rfl, before, behind⟩ := @ih (n - node.size) (by omega)
      refine ⟨node :: front, other, back, rfl, ?_, ?_⟩ <;> rw [length_preorderAll_cons] <;> omega

end Node

namespace Table

def rebuild? (table : Table) : Nat → Nat → Option Node
  | 0, _ => none
  | bound + 1, id => do
    let entry ← table.entry? id
    let children ← entry.children.mapM (table.rebuild? bound)
    return ⟨entry.kind, entry.span, children⟩

mutual

/-- Adds the entries of a subtree to a table that is being built, and tells the number of its root.
The children of an entry are filled in when everything below it is there. -/
def grow (parent : Option Nat) (entries : List Entry) : Node → List Entry × Nat
  | ⟨kind, span, children⟩ =>
    let id := entries.length
    let below := growAll (some id) (entries ++ [⟨kind, span, parent, []⟩]) children
    (below.1.modify id fun entry => { entry with children := below.2 }, id)

def growAll (parent : Option Nat) (entries : List Entry) : List Node → List Entry × List Nat
  | [] => (entries, [])
  | node :: rest =>
    let first := grow parent entries node
    let others := growAll parent first.1 rest
    (others.1, first.2 :: others.2)

end

mutual

theorem length_flatten (id : Nat) (parent : Option Nat) :
    (node : Node) → (flatten id parent node).length = node.size
  | ⟨kind, span, children⟩ => by
    rw [flatten, List.length_cons, Table.length_flattenAll, Node.size_eq]

theorem length_flattenAll (id : Nat) (parent : Option Nat) :
    (nodes : List Node) → (flattenAll id parent nodes).length = (Node.preorderAll nodes).length
  | [] => by rw [flattenAll, Node.preorderAll, List.length_nil, List.length_nil]
  | node :: rest => by
    rw [flattenAll, List.length_append, Table.length_flatten, Table.length_flattenAll,
      Node.length_preorderAll_cons]

end

mutual

/-- What a table holds of each node, in the order of the nodes. -/
theorem map_flatten (id : Nat) (parent : Option Nat) : (node : Node) →
    (flatten id parent node).map (fun entry => (entry.kind, entry.span)) =
      node.preorder.map fun n => (n.kind, n.span)
  | ⟨kind, span, children⟩ => by
    rw [flatten, Node.preorder, List.map_cons, List.map_cons, Table.map_flattenAll]

theorem map_flattenAll (id : Nat) (parent : Option Nat) : (nodes : List Node) →
    (flattenAll id parent nodes).map (fun entry => (entry.kind, entry.span)) =
      (Node.preorderAll nodes).map fun n => (n.kind, n.span)
  | [] => by rw [flattenAll, Node.preorderAll, List.map_nil, List.map_nil]
  | node :: rest => by
    rw [flattenAll, Node.preorderAll, List.map_append, List.map_append, Table.map_flatten,
      Table.map_flattenAll]

end

mutual

/-- Filling in children late gives the entries that know their children from the start. -/
theorem grow_eq (parent : Option Nat) (entries : List Entry) : (node : Node) →
    grow parent entries node = (entries ++ flatten entries.length parent node, entries.length)
  | ⟨kind, span, children⟩ => by
    simp only [grow, Table.growAll_eq, List.length_append, List.length_singleton, flatten,
      List.append_assoc, List.singleton_append, Prod.mk.injEq, and_true]
    rw [List.modify_eq_take_drop, List.take_left, List.drop_left, List.modifyHead_cons]

theorem growAll_eq (parent : Option Nat) (entries : List Entry) : (nodes : List Node) →
    growAll parent entries nodes =
      (entries ++ flattenAll entries.length parent nodes, siblingIds entries.length nodes)
  | [] => by rw [growAll, flattenAll, siblingIds, List.append_nil]
  | node :: rest => by
    simp only [growAll, Table.grow_eq, Table.growAll_eq, List.length_append, Table.length_flatten,
      flattenAll, siblingIds, List.append_assoc]

end

theorem length_siblingIds (id : Nat) (nodes : List Node) :
    (siblingIds id nodes).length = nodes.length := by
  induction nodes generalizing id with
  | nil => rfl
  | cons node rest ih => rw [siblingIds, List.length_cons, List.length_cons, ih]

theorem siblingIds_append (id : Nat) (front back : List Node) :
    siblingIds id (front ++ back) =
      siblingIds id front ++ siblingIds (id + (Node.preorderAll front).length) back := by
  induction front generalizing id with
  | nil => rfl
  | cons node rest ih =>
    rw [List.cons_append, siblingIds, siblingIds, ih, Node.length_preorderAll_cons, Nat.add_assoc,
      List.cons_append]

def Stores (table : Table) (id : Nat) (parent : Option Nat) (node : Node) : Prop :=
  flatten id parent node <+: table.entries.drop id

def StoresAll (table : Table) (id : Nat) (parent : Option Nat) (nodes : List Node) : Prop :=
  flattenAll id parent nodes <+: table.entries.drop id

variable {table : Table} {id index child other : Nat} {parent : Option Nat} {node n : Node}
  {nodes rest front back : List Node} {path : List Nat}

theorem Stores.entry (h : table.Stores id parent node) : table.entry? id =
    some ⟨node.kind, node.span, parent, siblingIds (id + 1) node.children⟩ := by
  cases node
  rw [Stores, flatten] at h
  obtain ⟨behind, whole⟩ := h
  have first := @List.getElem?_drop _ table.entries id 0
  rw [← whole] at first
  exact first.symm

theorem Stores.below (h : table.Stores id parent node) :
    table.StoresAll (id + 1) (some id) node.children := by
  cases node
  rw [Stores, flatten] at h
  obtain ⟨behind, whole⟩ := h
  refine ⟨behind, ?_⟩
  rw [← List.drop_drop, ← whole]
  rfl

theorem StoresAll.cons (h : table.StoresAll id parent (node :: rest)) :
    table.Stores id parent node ∧ table.StoresAll (id + node.size) parent rest := by
  rw [StoresAll, flattenAll] at h
  obtain ⟨behind, whole⟩ := h
  rw [List.append_assoc] at whole
  refine ⟨⟨_, whole⟩, behind, ?_⟩
  rw [← List.drop_drop, ← whole, ← length_flatten id parent node, List.drop_left]

theorem StoresAll.middle (h : table.StoresAll id parent (front ++ node :: back)) :
    table.Stores (id + (Node.preorderAll front).length) parent node := by
  induction front generalizing id with
  | nil => exact h.cons.1
  | cons first front ih =>
    rw [Node.length_preorderAll_cons, ← Nat.add_assoc]
    exact ih h.cons.2

theorem Stores.children (h : table.Stores id parent node) :
    table.children id = siblingIds (id + 1) node.children := by
  rw [Table.children, h.entry]
  rfl

theorem Stores.parent? (h : table.Stores id parent node) : table.parent? id = parent := by
  rw [Table.parent?, h.entry]
  rfl

theorem Stores.within (h : table.Stores id parent node) : id + node.size ≤ table.size := by
  have row := h.length_le
  have some := node.size_pos
  rw [length_flatten, List.length_drop] at row
  rw [Table.size]
  omega

/-- A child is numbered behind everything below the children before it. -/
theorem Stores.child? (h : table.Stores id parent node)
    (split : node.children = front ++ n :: back) :
    table.child? id front.length = some (id + 1 + (Node.preorderAll front).length) := by
  have first : (siblingIds (id + 1) front).length = front.length := length_siblingIds _ _
  rw [Table.child?, h.children, split, siblingIds_append,
    List.getElem?_append_right (Nat.le_of_eq first), first, Nat.sub_self]
  rfl

/-- What is listed as a child is the root of the row of a child. -/
theorem Stores.of_child? (h : table.Stores id parent node)
    (found : table.child? id index = some child) :
    ∃ front n back, node.children = front ++ n :: back ∧
      child = id + 1 + (Node.preorderAll front).length ∧ table.Stores child (some id) n := by
  have inside : index < node.children.length := by
    rw [Table.child?, h.children] at found
    rw [← length_siblingIds (id + 1)]
    exact (List.getElem?_eq_some_iff.mp found).1
  have split : node.children =
      node.children.take index ++ node.children[index] :: node.children.drop (index + 1) := by
    rw [← List.drop_eq_getElem_cons inside, List.take_append_drop]
  have below := h.below
  have here := h.child? split
  rw [List.length_take, Nat.min_eq_left (Nat.le_of_lt inside), found] at here
  obtain rfl := Option.some.inj here
  rw [split] at below
  exact ⟨_, _, _, split, rfl, below.middle⟩

/-- What is reached from a node has its row inside that of the node, where the pre-order has it. -/
theorem Stores.descend (h : table.Stores id parent node)
    (found : table.descend? id path = some other) :
    ∃ above n before after, table.Stores other above n ∧
      node.preorder = before ++ (n.preorder ++ after) ∧ other = id + before.length := by
  induction path generalizing id parent node with
  | nil =>
    obtain rfl := Option.some.inj found
    exact ⟨parent, node, [], [], h, by simp, rfl⟩
  | cons index path ih =>
    obtain ⟨child, first, later⟩ := Option.bind_eq_some_iff.mp found
    obtain ⟨front, m, back, split, rfl, stored⟩ := h.of_child? first
    obtain ⟨above, n, before, after, deep, order, rfl⟩ := ih stored later
    refine ⟨above, n, node :: (Node.preorderAll front ++ before), after ++ Node.preorderAll back,
      deep, ?_, ?_⟩
    · rw [Node.preorder_eq node, split, Node.preorderAll_append, Node.preorderAll, order]
      simp
    · simp only [List.length_cons, List.length_append]
      omega

/-- Every number inside the row of a node is reached from it. -/
theorem Stores.reached (h : table.Stores id parent node) (behind : id ≤ other)
    (inside : other < id + node.size) : ∃ path, table.descend? id path = some other := by
  induction node using Node.induct generalizing id parent with
  | node kind span children ih =>
    by_cases same : other = id
    · exact ⟨[], by rw [same]; rfl⟩
    · simp only [Node.size_eq] at inside
      have deep : other - (id + 1) < (Node.preorderAll children).length := by omega
      obtain ⟨front, n, back, rfl, before, after⟩ := Node.exists_sibling deep
      obtain ⟨path, found⟩ := ih n (by simp) h.below.middle (by omega) (by omega)
      refine ⟨front.length :: path, ?_⟩
      rw [descend?, h.child? rfl]
      exact found

theorem descend?_append (table : Table) (id : Nat) (front back : List Nat) :
    table.descend? id (front ++ back) =
      (table.descend? id front).bind (table.descend? · back) := by
  induction front generalizing id with
  | nil => rfl
  | cons index front ih =>
    rw [List.cons_append, descend?, descend?, Option.bind_assoc]
    congr 1
    funext child
    exact ih child

theorem descend?_concat (table : Table) (id : Nat) (path : List Nat) (index : Nat) :
    table.descend? id (path ++ [index]) =
      (table.descend? id path).bind (table.child? · index) := by
  rw [descend?_append]
  congr 1
  funext other
  rw [descend?]
  exact Option.bind_fun_some _

mutual

/-- A visit lists the row of a node before it goes on with the stack. -/
theorem visit_stored (bound : Nat) (stack : List Nat) : (node : Node) → {id : Nat} →
    {parent : Option Nat} → table.Stores id parent node →
    table.visit (node.size + bound) (id :: stack) =
      List.range' id node.size ++ table.visit bound stack
  | ⟨kind, span, children⟩, id, parent, h => by
    have size := Node.size_eq ⟨kind, span, children⟩
    have steps : Node.size ⟨kind, span, children⟩ + bound =
        (Node.preorderAll children).length + bound + 1 := by
      rw [size]
      exact Nat.add_right_comm _ _ _
    rw [steps, visit, h.children, Table.visit_storedAll bound stack children h.below, size,
      List.range'_succ, List.cons_append]

theorem visit_storedAll (bound : Nat) (stack : List Nat) : (nodes : List Node) → {id : Nat} →
    {parent : Option Nat} → table.StoresAll id parent nodes →
    table.visit ((Node.preorderAll nodes).length + bound) (siblingIds id nodes ++ stack) =
      List.range' id (Node.preorderAll nodes).length ++ table.visit bound stack
  | [], id, parent, _ => by simp [Node.preorderAll, siblingIds]
  | node :: rest, id, parent, h => by
    obtain ⟨first, others⟩ := h.cons
    rw [Node.length_preorderAll_cons, Nat.add_assoc, siblingIds, List.cons_append,
      Table.visit_stored _ _ node first, Table.visit_storedAll bound stack rest others,
      ← List.append_assoc, List.range'_append_1]

end

/-- A visit from a node lists the numbers of its row and ends there, however many steps it is
given. -/
theorem visit_eq_range (stored : table.Stores id parent node) {bound : Nat}
    (enough : node.size ≤ bound) : table.visit bound [id] = List.range' id node.size := by
  obtain ⟨more, rfl⟩ := Nat.exists_eq_add_of_le enough
  rw [visit_stored more [] node stored]
  cases more <;> simp [visit]

mutual

/-- Reading back a row gives the subtree that it was made from. -/
theorem rebuild?_stored (bound : Nat) : (node : Node) → {id : Nat} → {parent : Option Nat} →
    table.Stores id parent node → node.size ≤ bound → table.rebuild? bound id = some node
  | ⟨kind, span, children⟩, id, parent, h, enough => by
    rw [Node.size_eq] at enough
    cases bound with
    | zero => exact absurd enough (Nat.not_succ_le_zero _)
    | succ bound =>
      have below := Table.rebuild?_storedAll bound children h.below (Nat.le_of_succ_le_succ enough)
      simp [rebuild?, h.entry, below]

theorem rebuild?_storedAll (bound : Nat) : (nodes : List Node) → {id : Nat} →
    {parent : Option Nat} → table.StoresAll id parent nodes →
    (Node.preorderAll nodes).length ≤ bound →
    (siblingIds id nodes).mapM (table.rebuild? bound) = some nodes
  | [], id, parent, _, _ => rfl
  | node :: rest, id, parent, h, enough => by
    obtain ⟨first, others⟩ := h.cons
    rw [Node.length_preorderAll_cons] at enough
    have here := Table.rebuild?_stored bound node first (by omega)
    have behind := Table.rebuild?_storedAll bound rest others (by omega)
    simp [siblingIds, here, behind]

end

section OfNode

variable {t : Node}

theorem stores_ofNode (t : Node) : (ofNode t).Stores 0 none t :=
  List.prefix_refl _

theorem size_ofNode (t : Node) : (ofNode t).size = t.size :=
  length_flatten 0 none t

theorem lt_size_of_child? (found : table.child? id index = some child) : id < table.size := by
  apply Nat.lt_of_not_le
  intro beyond
  have none : table.entry? id = none := List.getElem?_eq_none beyond
  rw [Table.child?, children, none] at found
  exact absurd found (by simp)

theorem lt_size_of_parent? (linked : table.parent? child = some id) : child < table.size := by
  apply Nat.lt_of_not_le
  intro beyond
  have none : table.entry? child = none := List.getElem?_eq_none beyond
  rw [Table.parent?, none] at linked
  exact absurd linked (by simp)

/-- Every node of a table is reached from the root. -/
theorem exists_path (inside : id < (ofNode t).size) :
    ∃ path, (ofNode t).descend? 0 path = some id := by
  rw [size_ofNode] at inside
  exact (stores_ofNode t).reached (Nat.zero_le id) (by omega)

/-- Every number stands for the subtree that the pre-order has there. -/
theorem exists_stored (inside : id < (ofNode t).size) :
    ∃ above n, (ofNode t).Stores id above n ∧ t.preorder[id]? = some n := by
  obtain ⟨path, found⟩ := exists_path inside
  obtain ⟨above, n, before, after, stored, order, place⟩ := (stores_ofNode t).descend found
  refine ⟨above, n, stored, ?_⟩
  rw [order, place, Nat.zero_add, List.getElem?_append_right (Nat.le_refl _), Nat.sub_self,
    Node.preorder_eq]
  rfl

/-- The parent of a child is the node that lists it, and comes before it. -/
theorem parent?_of_child? (found : (ofNode t).child? id index = some child) :
    (ofNode t).parent? child = some id ∧ id < child := by
  obtain ⟨above, n, stored, -⟩ := exists_stored (lt_size_of_child? found)
  obtain ⟨front, m, back, -, rfl, below⟩ := stored.of_child? found
  exact ⟨below.parent?, by omega⟩

/-- All nodes but the root are children of some node. -/
theorem exists_child? (inside : child < (ofNode t).size) (deep : child ≠ 0) :
    ∃ id index, (ofNode t).child? id index = some child := by
  obtain ⟨path, found⟩ := exists_path inside
  rcases List.eq_nil_or_concat path with rfl | ⟨front, index, rfl⟩
  · exact absurd (Option.some.inj found).symm deep
  · rw [List.concat_eq_append, descend?_concat] at found
    obtain ⟨id, -, last⟩ := Option.bind_eq_some_iff.mp found
    exact ⟨id, index, last⟩

theorem mem_children_iff : child ∈ (ofNode t).children id ↔ (ofNode t).parent? child = some id := by
  constructor
  · intro mem
    obtain ⟨index, found⟩ := List.getElem?_of_mem mem
    exact (parent?_of_child? found).1
  · intro linked
    have inside := lt_size_of_parent? linked
    have deep : child ≠ 0 := by
      rintro rfl
      rw [(stores_ofNode t).parent?] at linked
      exact absurd linked (by simp)
    obtain ⟨other, index, found⟩ := exists_child? inside deep
    obtain rfl : other = id := by
      have := (parent?_of_child? found).1
      rw [linked] at this
      exact (Option.some.inj this).symm
    exact List.mem_of_getElem? found

theorem parent?_eq_none_iff (inside : id < (ofNode t).size) :
    (ofNode t).parent? id = none ↔ id = 0 := by
  constructor
  · intro none
    apply Decidable.byContradiction
    intro deep
    obtain ⟨other, index, found⟩ := exists_child? inside deep
    rw [(parent?_of_child? found).1] at none
    exact absurd none (by simp)
  · rintro rfl
    exact (stores_ofNode t).parent?

end OfNode

end Table

/-- The table of a tree holds the tree. Building it entry by entry, with children filled in late,
gives the same table. It has one entry for each node, in pre-order and the root first, with its kind
and its span, and the tree can be read back from it. A node is listed as a child by its parent alone,
and only the root has no parent. The descendants of a node are numbered on from the node itself, as
many as its subtree has nodes, and visiting them takes no more steps than that. -/
theorem table_holds_tree (t : Node) :
    let table := Table.ofNode t
    Table.grow none [] t = (table.entries, 0) ∧
    table.size = t.size ∧
    table.entries.map (fun entry => (entry.kind, entry.span)) =
      t.preorder.map (fun n => (n.kind, n.span)) ∧
    table.rebuild? table.size 0 = some t ∧
    (∀ id child, child ∈ table.children id ↔ table.parent? child = some id) ∧
    (∀ id, id < table.size → (table.parent? id = none ↔ id = 0)) ∧
    ∀ id node, t.preorder[id]? = some node →
      table.rebuild? table.size id = some node ∧
      table.descendants id = List.range' id node.size ∧
      ∀ bound, node.size ≤ bound → table.visit bound [id] = List.range' id node.size := by
  have root := Table.stores_ofNode t
  have size := Table.size_ofNode t
  refine ⟨Table.grow_eq none [] t, size, Table.map_flatten 0 none t,
    Table.rebuild?_stored _ t root (Nat.le_of_eq size.symm), fun id child => Table.mem_children_iff,
    fun id => Table.parent?_eq_none_iff, ?_⟩
  intro id node here
  have inside : id < (Table.ofNode t).size := by
    rw [size]
    exact (List.getElem?_eq_some_iff.mp here).1
  obtain ⟨above, n, stored, place⟩ := Table.exists_stored inside
  obtain rfl : node = n := Option.some.inj (here.symm.trans place)
  have smaller : node.size ≤ (Table.ofNode t).size :=
    Nat.le_trans (Nat.le_add_left _ _) stored.within
  exact ⟨Table.rebuild?_stored _ node stored smaller, Table.visit_eq_range stored smaller,
    fun bound enough => Table.visit_eq_range stored enough⟩

def pairSum : Node :=
  ⟨.sourceFile, ⟨0, 10⟩, [.wrap .binaryExpression
    [.wrap .tupleExpression [.leaf .identifier ⟨1, 2⟩, .leaf .identifier ⟨4, 5⟩],
      .leaf .operator ⟨7, 8⟩, .leaf .identifier ⟨9, 10⟩]]⟩

/-- The pair has number two, and its names are numbered behind it. -/
theorem pairSum_held :
    let table := Table.ofNode pairSum
    let pair := Node.wrap .tupleExpression [.leaf .identifier ⟨1, 2⟩, .leaf .identifier ⟨4, 5⟩]
    (pairSum.preorder[2]? = some pair ∧ table.rebuild? table.size 2 = some pair ∧
      table.descendants 2 = [2, 3, 4]) ∧ 2 < table.size ∧ table.parent? 2 ≠ none := by
  intro table pair
  have place : pairSum.preorder[2]? = some pair := rfl
  have inside : 2 < table.size := by decide
  obtain ⟨-, -, -, -, -, roots, held⟩ := table_holds_tree pairSum
  obtain ⟨read, below, -⟩ := held 2 pair place
  exact ⟨⟨place, read, below⟩, inside, fun none => absurd ((roots 2 inside).mp none) (by decide)⟩

end CellBindings
