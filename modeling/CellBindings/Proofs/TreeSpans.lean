import CellBindings.Proofs.FileTrees

/-!
The spans of a tree. A node has the extent of the tokens it is built from, so the spans of a tree
nest: children lie inside their node, one behind the other. The items of a file share out its
tokens in the same way.
-/

namespace CellBindings

/-- A run starts and stops where tokens of it do. -/
theorem extent_ends {ts : List Token} (h : ts ≠ []) :
    (∃ t ∈ ts, t.span.start = (extent ts).start) ∧ ∃ t ∈ ts, t.span.stop = (extent ts).stop := by
  refine ⟨⟨ts.head h, List.head_mem h, ?_⟩, ⟨ts.getLast h, List.getLast_mem h, ?_⟩⟩
  · simp [extent, List.head?_eq_some_head h]
  · simp [extent, List.getLast?_eq_some_getLast h]

theorem le_stopAfter {place : Nat} {ts : List Token} (ho : Ordered ts)
    (h : ∀ t ∈ ts, place ≤ t.span.start) : place ≤ stopAfter place ts := by
  by_cases hn : ts = []
  · simp [hn]
  · obtain ⟨t, ht, hs⟩ := (extent_ends hn).2
    have := h t ht
    have := ho.nonempty t ht
    rw [stopAfter_of_ne_nil _ hn, ← hs]
    omega

section Forests

variable {mark : Token → Prop} {built : List Token → Node → Prop} {place : Nat} {ts : List Token}
  {nodes : List Node}

/-- As far as places go, the word between two names is like any mark. -/
theorem Forest.renamed {us vs : List Token} {t : Token} {path name : Node} (hp : built us path)
    (hn : built vs name) : Forest (fun _ => True) built place (us ++ t :: vs) [path, name] :=
  .node hp (.token trivial (.single hn))

/-- A node of a forest stands for a part of its tokens, or is empty where one of them stops. -/
theorem Forest.mem (h : Forest mark built place ts nodes) {node : Node} (hm : node ∈ nodes) :
    (∃ before us after, ts = before ++ (us ++ after) ∧ built us node) ∨
      ∃ kind offset, kind.MayBeEmpty ∧ node = ⟨kind, .emptyAt offset, []⟩ ∧
        (offset = place ∨ ∃ t ∈ ts, offset = t.span.stop) := by
  induction h with
  | nil => cases hm
  | @token place t ts nodes _ _ ih =>
    rcases ih hm with ⟨before, us, after, rfl, hb⟩ | ⟨kind, offset, hk, rfl, ho⟩
    · exact .inl ⟨t :: before, us, after, rfl, hb⟩
    · refine .inr ⟨kind, offset, hk, rfl, .inr ?_⟩
      rcases ho with rfl | ⟨u, hu, rfl⟩
      · exact ⟨t, by simp, rfl⟩
      · exact ⟨u, by simp [hu], rfl⟩
  | @node place vs ts first nodes hf _ ih =>
    rcases List.mem_cons.mp hm with rfl | hm
    · exact .inl ⟨[], vs, ts, rfl, hf⟩
    rcases ih hm with ⟨before, us, after, rfl, hb⟩ | ⟨kind, offset, hk, rfl, ho⟩
    · exact .inl ⟨vs ++ before, us, after, by simp, hb⟩
    · refine .inr ⟨kind, offset, hk, rfl, ?_⟩
      rcases ho with rfl | ⟨u, hu, rfl⟩
      · by_cases hn : vs = []
        · exact .inl (by simp [hn])
        · obtain ⟨t, ht, hs⟩ := (extent_ends hn).2
          exact .inr ⟨t, by simp [ht], by rw [stopAfter_of_ne_nil _ hn, hs]⟩
      · exact .inr ⟨u, by simp [hu], rfl⟩
  | @empty place ts kind nodes hk _ ih =>
    rcases List.mem_cons.mp hm with rfl | hm
    · exact .inr ⟨kind, place, hk, rfl, .inl rfl⟩
    · exact ih hm

/-- The spans of a forest that is read from a place before its tokens on. -/
theorem Forest.spans (h : Forest mark Built place ts nodes) (ho : Ordered ts)
    (hp : ∀ t ∈ ts, place ≤ t.span.start) :
    (∀ node ∈ nodes, place ≤ node.span.start ∧ node.span.start ≤ node.span.stop ∧
      node.span.stop ≤ stopAfter place ts) ∧
    nodes.Pairwise fun a b => a.span.stop ≤ b.span.start := by
  induction h with
  | nil => simp
  | @token place t ts nodes _ _ ih =>
    obtain ⟨spans, apart⟩ := ih ho.tail ho.head_before
    have := hp t (by simp)
    have := ho.nonempty t (by simp)
    refine ⟨fun node hm => ?_, apart⟩
    obtain ⟨first, filled, last⟩ := spans node hm
    rw [stopAfter_cons]
    exact ⟨by omega, filled, last⟩
  | @node place us ts node nodes hb _ ih =>
    have hn := hb.ne_nil
    have behind : ∀ t ∈ ts, stopAfter place us ≤ t.span.start := by
      intro t ht
      obtain ⟨u, hu, hs⟩ := (extent_ends hn).2
      rw [stopAfter_of_ne_nil _ hn, ← hs]
      exact ho.across hu ht
    obtain ⟨spans, apart⟩ := ih ho.right behind
    have grows := le_stopAfter ho.right behind
    obtain ⟨u, hu, hs⟩ := (extent_ends hn).1
    have front := hp u (by simp [hu])
    have filled := extent_nonempty ho.left hn
    have stops := stopAfter_of_ne_nil place hn
    rw [← hb.span_eq] at hs filled stops
    rw [stopAfter_append]
    refine ⟨fun other hm => ?_, List.pairwise_cons.mpr ⟨fun other hm => ?_, apart⟩⟩
    · rcases List.mem_cons.mp hm with rfl | hm
      · omega
      · have := spans other hm
        omega
    · have := spans other hm
      omega
  | @empty place ts kind nodes _ _ ih =>
    -- an empty list stands at the place itself, so the place does not move
    obtain ⟨spans, apart⟩ := ih ho hp
    have grows := le_stopAfter ho hp
    refine ⟨fun other hm => ?_, List.pairwise_cons.mpr ⟨fun other hm => ?_, apart⟩⟩
    · rcases List.mem_cons.mp hm with rfl | hm
      · exact ⟨Nat.le_refl _, Nat.le_refl _, grows⟩
      · exact spans other hm
    · exact (spans other hm).1

end Forests

/-- The node stands for a part of the run, or is a list without parts at an edge. -/
def PartOf (edge : Nat → Prop) (ts : List Token) (node : Node) : Prop :=
  (∃ before us after, ts = before ++ (us ++ after) ∧ Built us node) ∨
    ∃ kind offset, kind.MayBeEmpty ∧ edge offset ∧ node = ⟨kind, .emptyAt offset, []⟩

section Parts

variable {edge : Nat → Prop} {ts us : List Token} {node : Node} {nodes : List Node}

theorem PartOf.widen {before after : List Token} (h : PartOf edge us node)
    (split : ts = before ++ (us ++ after)) : PartOf edge ts node := by
  rcases h with ⟨front, vs, back, rfl, hb⟩ | empty
  · exact .inl ⟨before ++ front, vs, back ++ after, by simp [split], hb⟩
  · exact .inr empty

def Edged (edge : Nat → Prop) (ts : List Token) : Prop :=
  ∀ t ∈ ts, edge t.span.start ∧ edge t.span.stop

theorem edged_everywhere (ts : List Token) : Edged (fun _ => True) ts :=
  fun _ _ => ⟨trivial, trivial⟩

theorem Edged.extent (hn : ts ≠ []) (h : Edged edge ts) :
    edge (extent ts).start ∧ edge (extent ts).stop := by
  obtain ⟨⟨t, ht, first⟩, ⟨u, hu, last⟩⟩ := extent_ends hn
  rw [← first, ← last]
  exact ⟨(h t ht).1, (h u hu).2⟩

theorem Edged.part {before after : List Token} (h : Edged edge ts)
    (split : ts = before ++ (us ++ after)) : Edged edge us :=
  fun t ht => h t (by simp [split, ht])

def HasParts (edge : Nat → Prop) (ts : List Token) (node : Node) : Prop :=
  Edged edge ts → ∀ n ∈ node.preorder, PartOf edge ts n

theorem Forest.parts {mark : Token → Prop} {place : Nat}
    (h : Forest mark (HasParts edge) place ts nodes) (start : edge place) (edges : Edged edge ts) :
    ∀ n ∈ Node.preorderAll nodes, PartOf edge ts n := by
  intro n hm
  rw [Node.preorderAll_eq] at hm
  obtain ⟨child, hc, hd⟩ := List.mem_flatMap.mp hm
  rcases h.mem hc with ⟨before, us, after, split, parts⟩ | ⟨kind, offset, empty, rfl, place⟩
  · exact (parts (edges.part split) n hd).widen split
  · rcases Node.mem_preorder.mp hd with rfl | ⟨_, hc, _⟩
    · refine .inr ⟨kind, offset, empty, ?_, rfl⟩
      rcases place with rfl | ⟨t, ht, rfl⟩
      · exact start
      · exact (edges t ht).2
    · cases hc

theorem Built.hasParts (h : Built ts node) : HasParts edge ts node := by
  have node_parts {ts : List Token} {node : Node} (hb : Built ts node)
      (below : Edged edge ts → ∀ n ∈ Node.preorderAll node.children, PartOf edge ts n) :
      HasParts edge ts node := by
    intro edges n hm
    rw [Node.preorder_eq] at hm
    rcases List.mem_cons.mp hm with rfl | hm
    · exact .inl ⟨[], ts, [], by simp, hb⟩
    · exact below edges n hm
  refine h.induct ?_ ?_ ?_ ?_ ?_
  · intro kind t hl
    exact node_parts (.leaf hl) (by simp [Node.preorderAll])
  · intro colon t hc ht
    exact node_parts (.symbol hc ht) (by simp [Node.preorderAll])
  · intro ts hn
    exact node_parts (.unread hn) (by simp [Grammar.unread, Node.leaf, Node.preorderAll])
  · intro us t vs path name hp ht hn
    refine node_parts (.renamed hp.1 ht hn.1) fun edges => ?_
    exact (Forest.renamed hp.2 hn.2).parts (edges.extent (by simp)).1 edges
  · intro kind ts children hk hn forest
    refine node_parts (.branch hk hn (forest.imp fun _ _ both => both.1)) fun edges => ?_
    exact (forest.imp fun _ _ both => both.2).parts (edges.extent hn).1 edges

end Parts

/-- A node in its place: it stands between two edges, around its children. -/
structure Nested (edge : Nat → Prop) (node : Node) : Prop where
  edges : edge node.span.start ∧ edge node.span.stop
  ordered : node.span.start ≤ node.span.stop
  inside : ∀ child ∈ node.children, node.span.start ≤ child.span.start ∧
    child.span.start ≤ child.span.stop ∧ child.span.stop ≤ node.span.stop
  apart : node.children.Pairwise fun a b => a.span.stop ≤ b.span.start
  childless : node.kind.isLeaf = true ∨ node.kind = .error → node.children = []

section Nesting

variable {edge : Nat → Prop} {kind : Kind} {ts : List Token} {node : Node} {children : List Node}

theorem nested_childless (h : edge node.span.start ∧ edge node.span.stop)
    (ordered : node.span.start ≤ node.span.stop) (childless : node.children = []) :
    Nested edge node :=
  ⟨h, ordered, by simp [childless], by simp [childless], fun _ => childless⟩

theorem nested_branch {mark : Token → Prop} (hk : kind.IsBranch) (hn : ts ≠ []) (ho : Ordered ts)
    (edges : Edged edge ts) (h : Forest mark Built (extent ts).start ts children) :
    Nested edge ⟨kind, extent ts, children⟩ := by
  obtain ⟨spans, apart⟩ := h.spans ho fun t ht => (extent_covers ho ht).1
  rw [stopAfter_of_ne_nil _ hn] at spans
  refine ⟨edges.extent hn, Nat.le_of_lt (extent_nonempty ho hn), spans, apart, ?_⟩
  rintro (leaf | error)
  · rw [hk.1] at leaf
    cases leaf
  · exact absurd error hk.2

theorem Built.nested (h : Built ts node) (ho : Ordered ts) (edges : Edged edge ts) :
    Nested edge node := by
  have ends := edges.extent h.ne_nil
  have filled := extent_nonempty ho h.ne_nil
  rw [← h.span_eq] at ends filled
  cases h with
  | leaf _ => exact nested_childless ends (Nat.le_of_lt filled) rfl
  | symbol _ _ => exact nested_childless ends (Nat.le_of_lt filled) rfl
  | unread hn => exact nested_childless ends (Nat.le_of_lt filled) rfl
  | renamed hp _ hn =>
    exact nested_branch (by decide) (by simp) ho edges (.renamed hp hn)
  | branch hk hn forest => exact nested_branch hk hn ho edges forest

theorem PartOf.nested (h : PartOf edge ts node) (ho : Ordered ts) (edges : Edged edge ts) :
    Nested edge node ∧ (node.span.start < node.span.stop ∨ node.kind.MayBeEmpty) := by
  rcases h with ⟨before, us, after, rfl, hb⟩ | ⟨kind, offset, empty, stands, rfl⟩
  · have run := ho.right.left
    refine ⟨hb.nested run (edges.part rfl), .inl ?_⟩
    rw [hb.span_eq]
    exact extent_nonempty run hb.ne_nil
  · exact ⟨nested_childless ⟨stands, stands⟩ (Nat.le_refl _) rfl, .inr empty⟩

end Nesting

theorem Listing.apart {ts : List Token} {nodes : List Node} (h : Listing ts nodes)
    (ho : Ordered ts) : nodes.Pairwise fun a b => a.span.stop ≤ b.span.start :=
  ((h.forest 0).spans ho fun _ _ => Nat.zero_le _).2

theorem Listing.mem {ts : List Token} {nodes : List Node} (h : Listing ts nodes) {node : Node}
    (hm : node ∈ nodes) : ∃ before us after, ts = before ++ (us ++ after) ∧ Built us node := by
  induction h with
  | nil => cases hm
  | @separator t ts nodes _ _ ih =>
    obtain ⟨before, us, after, rfl, hb⟩ := ih hm
    exact ⟨t :: before, us, after, rfl, hb⟩
  | @item vs ts first nodes hf _ ih =>
    rcases List.mem_cons.mp hm with rfl | hm
    · exact ⟨[], vs, ts, rfl, hf⟩
    · obtain ⟨before, us, after, rfl, hb⟩ := ih hm
      exact ⟨vs ++ before, us, after, by simp, hb⟩

theorem Listing.parts {edge : Nat → Prop} {ts : List Token} {nodes : List Node}
    (h : Listing ts nodes) (edges : Edged edge ts) :
    ∀ n ∈ Node.preorderAll nodes, PartOf edge ts n := by
  intro n hm
  rw [Node.preorderAll_eq] at hm
  obtain ⟨item, hi, hd⟩ := List.mem_flatMap.mp hm
  obtain ⟨before, us, after, split, hb⟩ := h.mem hi
  exact (hb.hasParts (edges.part split) n hd).widen split

def Token.Outside (t : Token) (ts : List Token) : Prop :=
  (∀ u ∈ ts, u.span.stop ≤ t.span.start) ∨ ∀ u ∈ ts, t.span.stop ≤ u.span.start

theorem contains_of_mem {t : Token} {ts : List Token} (ho : Ordered ts) (ht : t ∈ ts) :
    (extent ts).contains t.span = true := by
  simpa [Span.contains] using extent_covers ho ht

theorem not_contains_of_outside {t : Token} {ts : List Token} {span : Span} (hn : ts ≠ [])
    (outside : t.Outside ts) (filled : t.span.start < t.span.stop)
    (inside : (extent ts).start ≤ span.start ∧ span.stop ≤ (extent ts).stop) :
    span.contains t.span = false := by
  obtain ⟨⟨u, hu, first⟩, ⟨v, hv, last⟩⟩ := extent_ends hn
  have misses : span.start ≤ t.span.start → span.stop < t.span.stop := by
    rcases outside with before | behind
    · have := before v hv
      omega
    · have := behind u hu
      omega
  simpa [Span.contains] using misses

/-- Each token that is no separator lies in one item. -/
theorem Listing.countP_contains {ts : List Token} {nodes : List Node} (h : Listing ts nodes)
    (ho : Ordered ts) {t : Token} (ht : t ∈ ts) (hs : Grammar.isSeparator t = false) :
    nodes.countP (fun node => node.span.contains t.span) = 1 := by
  induction h with
  | nil => cases ht
  | @separator u ts nodes hu _ ih =>
    rcases List.mem_cons.mp ht with rfl | ht
    · rw [hs] at hu
      cases hu
    · exact ih ho.tail ht
  | @item us ts node nodes hb rest ih =>
    have filled := ho.nonempty t ht
    rcases List.mem_append.mp ht with here | behind
    · have covered := contains_of_mem ho.left here
      rw [← hb.span_eq] at covered
      have others : nodes.countP (fun node => node.span.contains t.span) = 0 := by
        refine List.countP_eq_zero.mpr fun other hm => ?_
        obtain ⟨before, vs, after, rfl, hv⟩ := rest.mem hm
        have outside : t.Outside vs := .inr fun v hv => ho.across here (by simp [hv])
        rw [not_contains_of_outside hv.ne_nil outside filled (by simp [hv.span_eq])]
        exact Bool.false_ne_true
      rw [List.countP_cons, others, if_pos covered]
    · have outside : t.Outside us := .inl fun u hu => ho.across hu behind
      have missed : node.span.contains t.span = false :=
        not_contains_of_outside hb.ne_nil outside filled (by simp [hb.span_eq])
      rw [List.countP_cons, ih ho.right behind, missed]
      rfl

/-- Reading a text never fails. The root reaches over the whole text; its items stand one behind
the other, from token to token, and share out all tokens but the separators. No rule succeeds
without taking a token, so that no repetition goes on for ever. -/
theorem file_items_cover_tokens (text : Text) :
    ∃ items, parse? text = some ⟨.sourceFile, ⟨0, text.byteSize⟩, items⟩ ∧
      items.Pairwise (fun a b => a.span.stop ≤ b.span.start) ∧
      (∀ t ∈ tokenizeRecovering text, t.kind ≠ .newline → t.isPunctuation ';' = false →
        items.countP (fun item => item.span.contains t.span) = 1) ∧
      (∀ item ∈ items, item.span.start < item.span.stop ∧
        (∃ t ∈ tokenizeRecovering text, t.span.start = item.span.start) ∧
        ∃ t ∈ tokenizeRecovering text, t.span.stop = item.span.stop) ∧
      ∀ row ∈ Chart.ofTokens (tokenizeRecovering text), ∀ answer ∈ row.answers,
        ∀ node count, answer.get = some (node, count) → 0 < count := by
  obtain ⟨_, ordered, _⟩ := tokenizeRecovering_wellPlaced text
  obtain ⟨items, listing, found, root⟩ := parse_listing text
  refine ⟨items, root ▸ found, listing.apart ordered, fun t ht hn hp => ?_, fun item hi => ?_,
    (ofTokens_meets ordered).progress⟩
  · exact listing.countP_contains ordered ht (by simp [Grammar.isSeparator, hn, hp])
  · obtain ⟨before, us, after, split, hb⟩ := listing.mem hi
    obtain ⟨⟨t, ht, first⟩, ⟨u, hu, last⟩⟩ := extent_ends hb.ne_nil
    rw [hb.span_eq]
    exact ⟨extent_nonempty (split ▸ ordered).right.left hb.ne_nil,
      ⟨t, by simp [split, ht], first⟩, ⟨u, by simp [split, hu], last⟩⟩

/-- The tree of a text is nested between the boundaries of its characters. -/
theorem parse_nested (text : Text) {node : Node} (hm : node ∈ (parse text).preorder) :
    Nested text.IsBoundary node ∧
      (node.span.start < node.span.stop ∨ node.kind.MayBeEmpty ∨
        node = parse text ∧ text = []) := by
  obtain ⟨standing, ordered, _⟩ := tokenizeRecovering_wellPlaced text
  obtain ⟨items, listing, _, root⟩ := parse_listing text
  have edges : Edged text.IsBoundary (tokenizeRecovering text) :=
    fun t ht => (standing t ht).boundaries
  rw [root, Node.preorder_eq] at hm
  rw [root]
  rcases List.mem_cons.mp hm with rfl | hm
  · have first := @Text.isBoundary_of_append text [] text rfl
    have last := @Text.isBoundary_of_append text text [] (by simp)
    refine ⟨⟨⟨first, last⟩, Nat.zero_le _, fun item hi => ?_, listing.apart ordered, ?_⟩, ?_⟩
    · obtain ⟨before, us, after, split, hb⟩ := listing.mem hi
      have nested := hb.nested (split ▸ ordered).right.left (edges.part split)
      exact ⟨Nat.zero_le _, nested.ordered, nested.edges.2.le_byteSize⟩
    · rintro (leaf | error)
      · cases leaf
      · cases error
    · by_cases he : text = []
      · exact .inr (.inr ⟨rfl, he⟩)
      · exact .inl (Text.byteSize_pos he)
  · obtain ⟨nested, filled⟩ := (listing.parts edges node hm).nested ordered edges
    exact ⟨nested, filled.elim .inl fun empty => .inr (.inl empty)⟩

/-- Every node of the tree of a text stands between characters and around its children, and only
lists of parts and an empty text have empty spans. -/
theorem tree_spans_nest (text : Text) :
    parse? text = some (parse text) ∧
      ∀ node ∈ (parse text).preorder,
        node.span.start ≤ node.span.stop ∧ node.span.stop ≤ text.byteSize ∧
        text.IsBoundary node.span.start ∧ text.IsBoundary node.span.stop ∧
        (∀ child ∈ node.children,
          node.span.start ≤ child.span.start ∧ child.span.stop ≤ node.span.stop) ∧
        node.children.Pairwise (fun a b => a.span.stop ≤ b.span.start) ∧
        (node.kind.isLeaf = true ∨ node.kind = .error → node.children = []) ∧
        (node.span.start = node.span.stop →
          node.kind = .block ∨ node.kind = .letBindings ∨ node.kind = .parameterList ∨
            node = parse text ∧ text = []) := by
  obtain ⟨_, _, found, _⟩ := parse_listing text
  refine ⟨found, fun node hm => ?_⟩
  obtain ⟨⟨⟨first, last⟩, ordered, inside, apart, childless⟩, filled⟩ := parse_nested text hm
  refine ⟨ordered, last.le_byteSize, first, last, fun child hc => ?_, apart, childless, fun empty => ?_⟩
  · exact ⟨(inside child hc).1, (inside child hc).2.2⟩
  rcases filled with filled | (block | bindings | parameters) | whole
  · omega
  · exact .inl block
  · exact .inr (.inl bindings)
  · exact .inr (.inr (.inl parameters))
  · exact .inr (.inr (.inr whole))

end CellBindings
