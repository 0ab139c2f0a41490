import CellBindings.Tree.Cursor
import CellBindings.Proofs.StoredTrees

/-!
Walks of a cursor. A cursor that starts at a node of a table stands, after any moves, where its
child indices lead from that node. This is kept by every move that is made, since the parent of a
child is the node that lists it, and it is why a move that cannot be made changes nothing: a cursor
with an index left to give up always has a parent to go to.
-/

namespace CellBindings

namespace Table

variable {t : Node} {id other : Nat} {path : List Nat}

/-- Every step down leads to a larger number. -/
theorem le_of_descend? (found : (ofNode t).descend? id path = some other) :
    id + path.length ≤ other := by
  induction path generalizing id with
  | nil => exact Nat.le_of_eq (Option.some.inj found)
  | cons index path ih =>
    obtain ⟨child, first, later⟩ := Option.bind_eq_some_iff.mp found
    have deeper := (parent?_of_child? first).2
    have := ih later
    rw [List.length_cons]
    omega

/-- What is reached from a node is among its descendants. -/
theorem mem_descendants (inside : id < (ofNode t).size)
    (found : (ofNode t).descend? id path = some other) : other ∈ (ofNode t).descendants id := by
  obtain ⟨above, node, stored, -⟩ := exists_stored inside
  obtain ⟨-, n, before, after, -, order, rfl⟩ := stored.descend found
  have row : node.size ≤ (ofNode t).size := Nat.le_trans (Nat.le_add_left _ _) stored.within
  have size : node.size = before.length + (n.size + after.length) := by
    rw [Node.size, order, List.length_append, List.length_append, Node.size]
  have some := n.size_pos
  rw [descendants, visit_eq_range stored row, List.mem_range'_1]
  omega

end Table

namespace Cursor

inductive Move where
  | firstChild | nextSibling | parent
  deriving DecidableEq, Repr

def attempt? (table : Table) (cursor : Cursor) : Move → Option Cursor
  | .firstChild => cursor.firstChild? table
  | .nextSibling => cursor.nextSibling? table
  | .parent => cursor.parent? table

/-- Makes a move in place and tells whether it was made. The way up gives up the last index before
it asks for the parent. -/
def go (table : Table) (cursor : Cursor) : Move → Bool × Cursor
  | .firstChild =>
    match table.child? cursor.node 0 with
    | none => (false, cursor)
    | some child => (true, ⟨child, 0 :: cursor.path⟩)
  | .nextSibling =>
    match cursor.path with
    | [] => (false, cursor)
    | index :: path =>
      match table.parent? cursor.node with
      | none => (false, cursor)
      | some parent =>
        match table.child? parent (index + 1) with
        | none => (false, cursor)
        | some sibling => (true, ⟨sibling, (index + 1) :: path⟩)
  | .parent =>
    match cursor.path with
    | [] => (false, cursor)
    | _ :: path =>
      match table.parent? cursor.node with
      | none => (false, ⟨cursor.node, path⟩)
      | some parent => (true, ⟨parent, path⟩)

def run (table : Table) (cursor : Cursor) (moves : List Move) : Cursor :=
  moves.foldl (fun current move => (current.go table move).2) cursor

def Follows (table : Table) (start : Nat) (cursor : Cursor) : Prop :=
  table.descend? start cursor.path.reverse = some cursor.node

def IsBelow (table : Table) (cursor current : Cursor) : Prop :=
  ∃ index, current.path = index :: cursor.path ∧ table.child? cursor.node index = some current.node

variable {table : Table} {t : Node} {start : Nat} {cursor current next : Cursor} {move : Move}

theorem startAt_follows (table : Table) (start : Nat) : (startAt start).Follows table start :=
  rfl

theorem IsBelow.follows (below : IsBelow table cursor current) (h : cursor.Follows table start) :
    current.Follows table start := by
  obtain ⟨index, path, child⟩ := below
  rw [Follows, path, List.reverse_cons, Table.descend?_concat, h]
  exact child

/-- A cursor that is not at the start stands at a child of a place it has come by. -/
theorem Follows.exists_isBelow (h : cursor.Follows table start) (deep : cursor.path ≠ []) :
    ∃ above, IsBelow table above cursor ∧ above.Follows table start := by
  obtain ⟨index, path, split⟩ := List.exists_cons_of_ne_nil deep
  rw [Follows, split, List.reverse_cons, Table.descend?_concat] at h
  obtain ⟨parent, found, child⟩ := Option.bind_eq_some_iff.mp h
  exact ⟨⟨parent, path⟩, ⟨index, split, child⟩, found⟩

theorem IsBelow.parent? (below : IsBelow (.ofNode t) cursor current) :
    (Table.ofNode t).parent? current.node = some cursor.node := by
  obtain ⟨index, -, child⟩ := below
  exact (Table.parent?_of_child? child).1

/-- The way up from a child leads back. -/
theorem IsBelow.go_parent (below : IsBelow (.ofNode t) cursor current) :
    current.go (.ofNode t) .parent = (true, cursor) := by
  have up := below.parent?
  obtain ⟨index, path, -⟩ := below
  simp only [go, path, up]

/-- From a child, the way to the next sibling leads to a child of the same node or nowhere. -/
theorem IsBelow.go_nextSibling (below : IsBelow (.ofNode t) cursor current) :
    IsBelow (.ofNode t) cursor (current.go (.ofNode t) .nextSibling).2 := by
  have up := below.parent?
  obtain ⟨index, path, child⟩ := below
  simp only [go, path, up]
  cases later : (Table.ofNode t).child? cursor.node (index + 1) with
  | none => exact ⟨index, path, child⟩
  | some sibling => exact ⟨index + 1, rfl, later⟩

theorem IsBelow.run_nextSibling (below : IsBelow (.ofNode t) cursor current) (count : Nat) :
    IsBelow (.ofNode t) cursor (current.run (.ofNode t) (List.replicate count .nextSibling)) := by
  induction count generalizing current with
  | zero => exact below
  | succ count ih => exact ih below.go_nextSibling

/-- A move in place is the move that the cursor offers, or none: nothing is given up in vain. -/
theorem Follows.go_eq (h : cursor.Follows (.ofNode t) start) (move : Move) :
    cursor.go (.ofNode t) move =
      ((cursor.attempt? (.ofNode t) move).isSome, (cursor.attempt? (.ofNode t) move).getD cursor) := by
  cases move with
  | firstChild =>
    simp only [go, attempt?, firstChild?]
    cases (Table.ofNode t).child? cursor.node 0 <;> rfl
  | nextSibling =>
    simp only [go, attempt?, nextSibling?]
    cases cursor.path with
    | nil => rfl
    | cons index path =>
      cases (Table.ofNode t).parent? cursor.node with
      | none => rfl
      | some parent =>
        simp only []
        cases (Table.ofNode t).child? parent (index + 1) <;> rfl
  | parent =>
    by_cases first : cursor.path = []
    · simp [go, attempt?, Cursor.parent?, first]
    · obtain ⟨above, below, -⟩ := h.exists_isBelow first
      have up := below.parent?
      obtain ⟨index, path, -⟩ := below
      simp [go, attempt?, Cursor.parent?, path, up]

/-- A move that is made leads down to a child, on to a sibling or back up, and the indices follow. -/
theorem Follows.attempt? (h : cursor.Follows (.ofNode t) start)
    (made : cursor.attempt? (.ofNode t) move = some next) : next.Follows (.ofNode t) start := by
  cases move with
  | firstChild =>
    obtain ⟨child, found, rfl⟩ := Option.map_eq_some_iff.mp made
    exact IsBelow.follows ⟨0, rfl, found⟩ h
  | nextSibling =>
    by_cases first : cursor.path = []
    · simp [Cursor.attempt?, nextSibling?, first] at made
    · obtain ⟨above, below, follows⟩ := h.exists_isBelow first
      have up := below.parent?
      obtain ⟨index, path, -⟩ := below
      simp only [Cursor.attempt?, nextSibling?, path, up] at made
      obtain ⟨sibling, found, rfl⟩ := Option.map_eq_some_iff.mp made
      exact IsBelow.follows ⟨index + 1, rfl, found⟩ follows
  | parent =>
    by_cases first : cursor.path = []
    · simp [Cursor.attempt?, Cursor.parent?, first] at made
    · obtain ⟨above, below, follows⟩ := h.exists_isBelow first
      have up := below.parent?
      obtain ⟨index, path, -⟩ := below
      simp only [Cursor.attempt?, Cursor.parent?, path, up, Option.map_some] at made
      obtain rfl := Option.some.inj made
      exact follows

theorem Follows.go (h : cursor.Follows (.ofNode t) start) (move : Move) :
    (cursor.go (.ofNode t) move).2.Follows (.ofNode t) start := by
  rw [h.go_eq]
  cases made : cursor.attempt? (.ofNode t) move with
  | none => exact h
  | some next => exact h.attempt? made

theorem Follows.run (h : cursor.Follows (.ofNode t) start) (moves : List Move) :
    (cursor.run (.ofNode t) moves).Follows (.ofNode t) start := by
  induction moves generalizing cursor with
  | nil => exact h
  | cons move moves ih => exact ih (h.go move)

/-- The way up is closed where there is no index left to give up, and that is at the start. -/
theorem Follows.go_parent_iff (h : cursor.Follows (.ofNode t) start) :
    (cursor.go (.ofNode t) .parent).1 = false ↔ cursor.node = start := by
  by_cases first : cursor.path = []
  · have here : cursor.node = start := by
      rw [Follows, first] at h
      exact (Option.some.inj h).symm
    simp [Cursor.go, first, here]
  · obtain ⟨above, below, -⟩ := h.exists_isBelow first
    have deeper := Table.le_of_descend? h
    have some := List.length_pos_iff.mpr first
    rw [List.length_reverse] at deeper
    rw [below.go_parent]
    constructor
    · intro closed
      cases closed
    · intro here
      omega

end Cursor

/-- A cursor never leaves the subtree it starts in. After any moves, its node is where its indices
lead from the start, as deep below it as there are indices, and so the start or one of its
descendants. A move made in place is the one the cursor offers, and where it offers none, node and
depth stay as they are. Down to a first child, on to any number of siblings and up again leads back
to the same place. The way up is closed exactly at the start, also where the table has a parent for
it. -/
theorem cursor_keeps_subtree (t : Node) (start : Nat) (inside : start < (Table.ofNode t).size)
    (moves : List Cursor.Move) :
    let table := Table.ofNode t
    let cursor := (Cursor.startAt start).run table moves
    table.descend? start cursor.path.reverse = some cursor.node ∧
    cursor.depth = cursor.path.length ∧
    cursor.node ∈ table.descendants start ∧
    (∀ move, cursor.go table move =
      ((cursor.attempt? table move).isSome, (cursor.attempt? table move).getD cursor)) ∧
    (∀ move, (cursor.go table move).1 = false →
      (cursor.go table move).2.node = cursor.node ∧
        (cursor.go table move).2.depth = cursor.depth) ∧
    (∀ count, (cursor.go table .firstChild).1 = true →
      let sibling := (cursor.go table .firstChild).2.run table (.replicate count .nextSibling)
      sibling.go table .parent = (true, cursor)) ∧
    ((cursor.go table .parent).1 = false ↔ cursor.node = start) := by
  intro table cursor
  have follows : cursor.Follows table start := (Cursor.startAt_follows table start).run moves
  refine ⟨follows, rfl, Table.mem_descendants inside follows, follows.go_eq, ?_, ?_,
    follows.go_parent_iff⟩
  · intro move refused
    rw [follows.go_eq] at refused ⊢
    rw [Option.isSome_eq_false_iff, Option.isNone_iff_eq_none] at refused
    rw [refused]
    exact ⟨rfl, rfl⟩
  · intro count made sibling
    have first : Cursor.IsBelow table cursor (cursor.go table .firstChild).2 := by
      rw [follows.go_eq] at made ⊢
      obtain ⟨next, offered⟩ := Option.isSome_iff_exists.mp made
      rw [offered]
      obtain ⟨child, found, rfl⟩ := Option.map_eq_some_iff.mp offered
      exact ⟨0, rfl, found⟩
    exact (first.run_nextSibling count).go_parent

/-- A cursor that starts at the pair comes back to it from its second name, and no further up,
although the pair has a parent. -/
theorem pairSum_cursor_returns :
    let table := Table.ofNode pairSum
    let cursor := Cursor.startAt 2
    2 < table.size ∧ table.parent? 2 = some 1 ∧ (cursor.go table .firstChild).1 = true ∧
      ((cursor.go table .firstChild).2.run table [.nextSibling]).node = 4 ∧
      ((cursor.go table .firstChild).2.run table [.nextSibling]).go table .parent = (true, cursor) ∧
      (cursor.go table .parent).1 = false := by
  intro table cursor
  have inside : 2 < table.size := by decide
  have down : (cursor.go table .firstChild).1 = true := by decide
  obtain ⟨-, -, -, -, -, back, closed⟩ := cursor_keeps_subtree pairSum 2 inside []
  exact ⟨inside, by decide, down, by decide, back 1 down, closed.mpr rfl⟩

end CellBindings
