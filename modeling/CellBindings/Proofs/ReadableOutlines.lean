import CellBindings.Text.Lines
import CellBindings.Tree.Outline
import CellBindings.Proofs.StoredTrees

/-!
Outlines can be read back. Each line of an outline starts with the heading of its node: the indent
tells the depth, then come the kind and the two ends of the span, each up to a mark that does not
occur in it. So the source text behind the heading, whatever it holds, cannot be taken for a part of
it, and as the text is kept to its line, the headings of all nodes are there in pre-order. Their
depths give the shape: what follows a heading belongs below it for as long as it is deeper.
-/

namespace CellBindings

namespace Kind

theorem mem_all (kind : Kind) : kind ∈ all := by
  have declared : all[kind.ctorIdx]? = some kind := by cases kind <;> rfl
  exact List.mem_of_getElem? declared

theorem ofName?_name (kind : Kind) : ofName? kind.name = some kind := by
  have every : (all.all fun kind => ofName? kind.name == some kind) = true := by decide +kernel
  exact eq_of_beq (List.all_eq_true.mp every kind kind.mem_all)

theorem name_injective {kind other : Kind} (h : kind.name.toList = other.name.toList) :
    kind = other := by
  have same := ofName?_name kind
  rw [String.toList_inj.mp h, ofName?_name] at same
  exact (Option.some.inj same).symm

/-- The names of kinds are made of letters. -/
theorem name_letters (kind : Kind) :
    kind.name.toList ≠ [] ∧ ∀ c ∈ kind.name.toList, c.isAlpha = true := by
  -- the characters of a literal are read off it, which is faster than computing them
  have spelled : ∃ letters, kind.name = String.ofList letters ∧ letters ≠ [] ∧
      letters.all Char.isAlpha = true := by
    cases kind <;> exact ⟨_, rfl, List.cons_ne_nil _ _, rfl⟩
  obtain ⟨letters, name, some, alphabetic⟩ := spelled
  rw [name, String.toList_ofList]
  exact ⟨some, List.all_eq_true.mp alphabetic⟩

theorem not_mem_name {c : Char} (mark : c.isAlpha = false) (kind : Kind) :
    c ∉ kind.name.toList := by
  intro mem
  rw [kind.name_letters.2 c mem] at mark
  cases mark

end Kind

namespace Node

theorem decimal_injective {m n : Nat} (h : decimal m = decimal n) : m = n := by
  have same := congrArg (Nat.ofDigitChars 10 · 0) h
  simpa only [decimal, Nat.ofDigitChars_ten_toDigits] using same

theorem not_mem_decimal {c : Char} (mark : c.isDigit = false) (n : Nat) : c ∉ decimal n := by
  intro mem
  rw [Nat.isDigit_of_mem_toDigits (by decide) (by decide) mem] at mark
  cases mark

theorem not_mem_showBreaks (text : Text) : '\n' ∉ showBreaks text := by
  induction text with
  | nil => simp [showBreaks]
  | cons c cs ih =>
    rw [showBreaks]
    split
    · simpa using ih
    · next other => simpa [Ne.symm other] using ih

/-- A mark that does not stand in two pieces cuts them off in the same way. -/
theorem cut_unique {c : Char} {a b x y : Text} (ha : c ∉ a) (hb : c ∉ b)
    (h : a ++ c :: x = b ++ c :: y) : a = b ∧ x = y := by
  induction a generalizing b with
  | nil =>
    cases b with
    | nil => exact ⟨rfl, List.tail_eq_of_cons_eq h⟩
    | cons d b => exact absurd (List.mem_cons.mpr (.inl (List.head_eq_of_cons_eq h))) hb
  | cons e a ih =>
    cases b with
    | nil => exact absurd (List.mem_cons.mpr (.inl (List.head_eq_of_cons_eq h).symm)) ha
    | cons d b =>
      obtain ⟨rfl, rest⟩ := List.cons.inj h
      obtain ⟨rfl, rfl⟩ := ih (List.not_mem_of_not_mem_cons ha) (List.not_mem_of_not_mem_cons hb) rest
      exact ⟨rfl, rfl⟩

/-- An indent ends where something else than a blank stands. -/
theorem indent_unique {m n : Nat} {x y : Text} (hx : x.head? ≠ some ' ') (hy : y.head? ≠ some ' ')
    (h : List.replicate m ' ' ++ x = List.replicate n ' ' ++ y) : m = n ∧ x = y := by
  induction m generalizing n with
  | zero =>
    cases n with
    | zero => exact ⟨rfl, h⟩
    | succ n => exact absurd (congrArg List.head? h) hx
  | succ m ih =>
    cases n with
    | zero => exact absurd (congrArg List.head? h).symm hy
    | succ n =>
      obtain ⟨rfl, same⟩ := ih (List.tail_eq_of_cons_eq h)
      exact ⟨rfl, same⟩

structure Heading where
  depth : Nat
  kind : Kind
  span : Span
  deriving DecidableEq, Repr

mutual

def headings (depth : Nat) : Node → List Heading
  | ⟨kind, span, children⟩ => ⟨depth, kind, span⟩ :: headingsAll (depth + 1) children

def headingsAll (depth : Nat) : List Node → List Heading
  | [] => []
  | node :: rest => headings depth node ++ headingsAll depth rest

end

def Heading.body (source : Text) (heading : Heading) : Text :=
  List.replicate (2 * heading.depth) ' ' ++ (heading.kind.name.toList ++ '[' ::
    (decimal heading.span.start ++ ',' :: (decimal heading.span.stop ++ ']' ::
      (':' :: ' ' :: '\x22' :: showBreaks ((source.slice? heading.span).getD []) ++ ['\x22']))))

theorem outlineLine_eq (source : Text) (depth : Nat) (kind : Kind) (span : Span) :
    outlineLine source depth kind span = Heading.body source ⟨depth, kind, span⟩ ++ ['\n'] := by
  simp [outlineLine, Heading.body]

theorem Heading.not_mem_body (source : Text) (heading : Heading) : '\n' ∉ heading.body source := by
  have digits (n : Nat) := @not_mem_decimal '\n' rfl n
  have shown := not_mem_showBreaks ((source.slice? heading.span).getD [])
  simp [body, Kind.not_mem_name, digits, shown]

/-- No source text hides the heading of a line. -/
theorem Heading.body_injective {source source' : Text} {heading other : Heading}
    (h : heading.body source = other.body source') : heading = other := by
  have letters (kind : Kind) (rest : Text) : (kind.name.toList ++ rest).head? ≠ some ' ' := by
    obtain ⟨some, letters⟩ := kind.name_letters
    obtain ⟨c, cs, name⟩ := List.exists_cons_of_ne_nil some
    rw [name, List.cons_append, List.head?_cons, Ne, Option.some.injEq]
    rintro rfl
    exact absurd (letters ' ' (by rw [name]; exact List.mem_cons_self)) (by decide)
  obtain ⟨depth, afterIndent⟩ := indent_unique (letters _ _) (letters _ _) h
  have name (kind : Kind) := @Kind.not_mem_name '[' rfl kind
  obtain ⟨kind, afterName⟩ := cut_unique (name _) (name _) afterIndent
  have comma (n : Nat) := @not_mem_decimal ',' rfl n
  obtain ⟨start, afterStart⟩ := cut_unique (comma _) (comma _) afterName
  have bracket (n : Nat) := @not_mem_decimal ']' rfl n
  obtain ⟨stop, -⟩ := cut_unique (bracket _) (bracket _) afterStart
  obtain ⟨depth', kind', ⟨start', stop'⟩⟩ := heading
  obtain rfl := Kind.name_injective kind
  obtain rfl := decimal_injective start
  obtain rfl := decimal_injective stop
  obtain rfl : depth' = other.depth := Nat.eq_of_mul_eq_mul_left (by decide) depth
  rfl

mutual

theorem outlineAt_eq (source : Text) (depth : Nat) : (node : Node) →
    outlineAt source depth node = (headings depth node).flatMap fun h => h.body source ++ ['\n']
  | ⟨kind, span, children⟩ => by
    rw [outlineAt, headings, List.flatMap_cons, Node.outlineAllAt_eq, outlineLine_eq]

theorem outlineAllAt_eq (source : Text) (depth : Nat) : (nodes : List Node) →
    outlineAllAt source depth nodes =
      (headingsAll depth nodes).flatMap fun h => h.body source ++ ['\n']
  | [] => by rw [outlineAllAt, headingsAll, List.flatMap_nil]
  | node :: rest => by
    rw [outlineAllAt, headingsAll, List.flatMap_append, Node.outlineAt_eq, Node.outlineAllAt_eq]

end

/-- The lines of an outline are those of its headings. -/
theorem lines_headings (source : Text) (hs : List Heading) :
    Text.lines (hs.flatMap fun h => h.body source ++ ['\n']) =
      hs.map fun h => h.body source ++ ['\n'] := by
  induction hs with
  | nil => rfl
  | cons h hs ih =>
    rw [List.flatMap_cons, List.append_assoc, List.singleton_append,
      Text.lines_line (h.not_mem_body source), ih, List.map_cons]

theorem lines_outline (source : Text) (t : Node) :
    (t.outline source).lines = (headings 0 t).map fun h => h.body source ++ ['\n'] := by
  rw [outline, outlineAt_eq, lines_headings]

mutual

theorem length_headings (depth : Nat) : (node : Node) → (headings depth node).length = node.size
  | ⟨kind, span, children⟩ => by
    rw [headings, List.length_cons, Node.length_headingsAll, size_eq]

theorem length_headingsAll (depth : Nat) :
    (nodes : List Node) → (headingsAll depth nodes).length = (preorderAll nodes).length
  | [] => by rw [headingsAll, preorderAll, List.length_nil, List.length_nil]
  | node :: rest => by
    rw [headingsAll, List.length_append, Node.length_headings, Node.length_headingsAll,
      length_preorderAll_cons]

end

theorem headings_eq (depth : Nat) (node : Node) :
    headings depth node = ⟨depth, node.kind, node.span⟩ :: headingsAll (depth + 1) node.children := by
  cases node
  rw [headings]

theorem headingsAll_append (depth : Nat) (front back : List Node) :
    headingsAll depth (front ++ back) = headingsAll depth front ++ headingsAll depth back := by
  induction front with
  | nil => rw [headingsAll, List.nil_append, List.nil_append]
  | cons node front ih => rw [List.cons_append, headingsAll, headingsAll, ih, List.append_assoc]

def Leaves (depth : Nat) (rest : List Heading) : Prop := ∀ h ∈ rest.head?, h.depth < depth

theorem Leaves.siblings {depth : Nat} {rest : List Heading} (h : Leaves depth rest)
    (nodes : List Node) : Leaves (depth + 1) (headingsAll depth nodes ++ rest) := by
  cases nodes with
  | nil =>
    intro first mem
    rw [headingsAll] at mem
    exact Nat.lt_succ_of_lt (h first mem)
  | cons node nodes =>
    intro first mem
    rw [headingsAll, headings_eq] at mem
    obtain rfl := Option.some.inj mem
    exact Nat.lt_succ_self depth

mutual

/-- The headings of a subtree tell the subtree, and where they end. -/
theorem headings_cancel {depth : Nat} : (node other : Node) → {rest rest' : List Heading} →
    Leaves (depth + 1) rest → Leaves (depth + 1) rest' →
    headings depth node ++ rest = headings depth other ++ rest' → node = other ∧ rest = rest'
  | ⟨kind, span, children⟩, ⟨kind', span', children'⟩, rest, rest', h, h', same => by
    rw [headings, headings, List.cons_append, List.cons_append, List.cons.injEq,
      Heading.mk.injEq] at same
    obtain ⟨⟨-, rfl, rfl⟩, below⟩ := same
    obtain ⟨rfl, rfl⟩ := Node.headingsAll_cancel children children' h h' below
    exact ⟨rfl, rfl⟩

theorem headingsAll_cancel {depth : Nat} : (nodes others : List Node) →
    {rest rest' : List Heading} → Leaves depth rest → Leaves depth rest' →
    headingsAll depth nodes ++ rest = headingsAll depth others ++ rest' →
    nodes = others ∧ rest = rest'
  | [], [], rest, rest', _, _, same => by
    rw [headingsAll] at same
    exact ⟨rfl, same⟩
  | [], other :: others, rest, rest', h, _, same => by
    rw [headingsAll, headingsAll, headings_eq] at same
    exact absurd (h _ (congrArg List.head? same)) (Nat.lt_irrefl depth)
  | node :: nodes, [], rest, rest', _, h', same => by
    rw [headingsAll, headingsAll, headings_eq] at same
    exact absurd (h' _ (congrArg List.head? same).symm) (Nat.lt_irrefl depth)
  | node :: nodes, other :: others, rest, rest', h, h', same => by
    rw [headingsAll, headingsAll, List.append_assoc, List.append_assoc] at same
    obtain ⟨rfl, behind⟩ :=
      Node.headings_cancel node other (h.siblings nodes) (h'.siblings others) same
    obtain ⟨rfl, rfl⟩ := Node.headingsAll_cancel nodes others h h' behind
    exact ⟨rfl, rfl⟩

end

theorem headings_of_lines {source source' : Text} {hs others : List Heading}
    (same : (hs.map fun h => h.body source ++ ['\n']) =
      others.map fun h => h.body source' ++ ['\n']) : hs = others := by
  induction hs generalizing others with
  | nil => exact (List.map_eq_nil_iff.mp same.symm).symm
  | cons h hs ih =>
    cases others with
    | nil => cases same
    | cons other others =>
      obtain ⟨line, rest⟩ := List.cons.inj same
      rw [Heading.body_injective (List.append_cancel_right line), ih rest]

theorem outline_injective {source source' : Text} {t other : Node}
    (h : t.outline source = other.outline source') : t = other := by
  have lines := congrArg Text.lines h
  rw [lines_outline, lines_outline] at lines
  have ended : Leaves 1 [] := fun h mem => absurd mem (by simp)
  apply (headings_cancel t other ended ended _).1
  rw [headings_of_lines lines]

end Node

/-- What is reached from a node has its heading where its entry is, one deeper with each step. -/
theorem Table.Stores.heading {table : Table} {id other depth : Nat} {parent : Option Nat}
    {node : Node} {path : List Nat} (h : table.Stores id parent node)
    (found : table.descend? id path = some other) :
    ∃ entry before after, table.entry? other = some entry ∧
      node.headings depth = before ++ ⟨depth + path.length, entry.kind, entry.span⟩ :: after ∧
      other = id + before.length := by
  induction path generalizing id parent node depth with
  | nil =>
    obtain rfl := Option.some.inj found
    exact ⟨_, [], _, h.entry, Node.headings_eq depth node, rfl⟩
  | cons index path ih =>
    obtain ⟨child, first, later⟩ := Option.bind_eq_some_iff.mp found
    obtain ⟨front, n, back, split, rfl, stored⟩ := h.of_child? first
    obtain ⟨entry, before, after, here, order, rfl⟩ := @ih _ (depth + 1) _ _ stored later
    refine ⟨entry, ⟨depth, node.kind, node.span⟩ ::
      (Node.headingsAll (depth + 1) front ++ before), after ++ Node.headingsAll (depth + 1) back,
      here, ?_, ?_⟩
    · rw [Node.headings_eq, split, Node.headingsAll_append, Node.headingsAll, order,
        List.length_cons, Nat.add_right_comm depth 1, Nat.add_assoc depth]
      simp
    · simp only [List.length_cons, List.length_append, Node.length_headingsAll]
      omega

/-- An outline is unambiguous. It has one line for each node of the table, every line ends in the
only line break it has, and the line of a node is the one with its number: indented by the length of
the path to the node, with its kind and its span. All nodes are reached by such paths. Whatever the
sources are, outlines of different trees are different. -/
theorem outline_determines_tree (t : Node) (source : Text) :
    let table := Table.ofNode t
    let lines := (t.outline source).lines
    lines.length = table.size ∧ lines.flatten = t.outline source ∧
    (∀ line ∈ lines, ∃ body, line = body ++ ['\n'] ∧ '\n' ∉ body) ∧
    (∀ path id, table.descend? 0 path = some id → ∃ entry, table.entry? id = some entry ∧
      lines[id]? = some (Node.outlineLine source path.length entry.kind entry.span)) ∧
    (∀ id, id < table.size → ∃ path, table.descend? 0 path = some id) ∧
    ∀ (other : Node) (source' : Text), t.outline source = other.outline source' → t = other := by
  have lines := Node.lines_outline source t
  refine ⟨?_, Text.flatten_lines _, ?_, ?_, fun id => Table.exists_path,
    fun other source' => Node.outline_injective⟩
  · rw [lines, List.length_map, Node.length_headings, Table.size_ofNode]
  · intro line mem
    rw [lines] at mem
    obtain ⟨heading, -, rfl⟩ := List.mem_map.mp mem
    exact ⟨_, rfl, heading.not_mem_body source⟩
  · intro path id found
    obtain ⟨entry, before, after, here, order, place⟩ :=
      @Table.Stores.heading _ _ _ 0 _ _ _ (Table.stores_ofNode t) found
    refine ⟨entry, here, ?_⟩
    rw [Nat.zero_add] at order place
    rw [lines, order, place, List.getElem?_map, List.getElem?_append_right (Nat.le_refl _),
      Nat.sub_self, Node.outlineLine_eq]
    rfl

/-- The second name of the pair has the fifth line, and a longer source leaves the outline as it
is. -/
theorem pairSum_outline_read :
    let source : Text := ['(', 'a', ',', ' ', 'b', ')', ' ', '+', ' ', 'c']
    let table := Table.ofNode pairSum
    (table.descend? 0 [0, 0, 1] = some 4 ∧ ∃ entry, table.entry? 4 = some entry ∧
      (pairSum.outline source).lines[4]? =
        some (Node.outlineLine source 3 entry.kind entry.span)) ∧
    ∃ other source', source' ≠ source ∧ pairSum.outline source = Node.outline source' other ∧
      pairSum = other := by
  intro source table
  have reached : table.descend? 0 [0, 0, 1] = some 4 := by decide
  have same : pairSum.outline source = pairSum.outline (source ++ ['\n']) := by decide +kernel
  obtain ⟨-, -, -, placed, -, determined⟩ := outline_determines_tree pairSum source
  exact ⟨⟨reached, placed [0, 0, 1] 4 reached⟩, pairSum, source ++ ['\n'], by decide, same,
    determined _ _ same⟩

end CellBindings
