import CellBindings.Proofs.TreeSpans

/-!
Names in tokens and trees. No rule of the grammar drops a name or reads it twice: each token that
spells a name has one node that accounts for it, and each leaf for a name has one token. The leaves
of a tree, in pre-order, follow the tokens.
-/

namespace CellBindings

open Grammar (isAsWord isSymbolName)

def Token.IsName (t : Token) : Prop := t.kind = .identifier ∨ t.kind = .macroName

namespace Node

/-- The node accounts for a name: it is a leaf for it, an unread leaf around it, a symbol that ends
in it, or, for the word `as`, the renaming that it stands in. -/
def houses (t : Token) (node : Node) : Bool :=
  match node.kind, node.children with
  | .identifier, _ => t.kind == .identifier && node.span == t.span
  | .macroIdentifier, _ => t.kind == .macroName && node.span == t.span
  | .error, _ => node.span.contains t.span
  | .symbol, _ => t.kind == .identifier && node.span.start < t.span.start &&
      node.span.stop == t.span.stop
  | .importAlias, [path, name] => isAsWord t && path.span.stop ≤ t.span.start &&
      t.span.stop ≤ name.span.start
  | _, _ => false

def isLeafNode (node : Node) : Bool := node.kind.isLeaf || node.kind == .error

end Node

theorem Kind.MayBeEmpty.isBranch {kind : Kind} (h : kind.MayBeEmpty) : kind.IsBranch := by
  rcases h with rfl | rfl | rfl
  · decide
  · decide
  · decide

theorem isLeafNode_branch {node : Node} (h : node.kind.IsBranch) : node.isLeafNode = false := by
  simp [Node.isLeafNode, h.1, h.2]

theorem Token.IsName.not_isMark {t : Token} (h : t.IsName) : ¬ t.IsMark := by
  intro mark
  rcases h with name | name
  · exact mark.1 name
  · exact mark.2.1 name

section Housing

variable {edge : Nat → Prop} {mark : Token → Prop} {place : Nat} {t : Token} {ts us : List Token}
  {node : Node} {nodes : List Node}

theorem houses_contains (nested : Nested edge node) (h : node.houses t = true) :
    node.span.contains t.span = true := by
  unfold Node.houses at h
  split at h
  · simp only [Bool.and_eq_true, beq_iff_eq] at h
    simp [h.2, Span.contains]
  · simp only [Bool.and_eq_true, beq_iff_eq] at h
    simp [h.2, Span.contains]
  · exact h
  · simp only [Bool.and_eq_true, beq_iff_eq, decide_eq_true_eq] at h
    simp only [Span.contains, Bool.and_eq_true, decide_eq_true_eq]
    omega
  · next path name _ children =>
    have first := nested.inside path (by simp [children])
    have last := nested.inside name (by simp [children])
    simp only [Bool.and_eq_true, decide_eq_true_eq] at h
    simp only [Span.contains, Bool.and_eq_true, decide_eq_true_eq]
    omega
  · cases h

theorem empty_not_houses {kind : Kind} (h : kind.MayBeEmpty) (span : Span) :
    Node.houses t ⟨kind, span, []⟩ = false := by
  rcases h with rfl | rfl | rfl
  · rfl
  · rfl
  · rfl

theorem Token.Outside.part {before after : List Token} (h : t.Outside ts)
    (split : ts = before ++ (us ++ after)) : t.Outside us := by
  rcases h with h | h
  · exact .inl fun u hu => h u (by simp [split, hu])
  · exact .inr fun u hu => h u (by simp [split, hu])

/-- A node does not account for a token outside the run that it is a part of. -/
theorem PartOf.houses_outside (h : PartOf edge ts node) (ho : Ordered ts) (outside : t.Outside ts)
    (filled : t.span.start < t.span.stop) : node.houses t = false := by
  rcases h with ⟨before, us, after, split, hb⟩ | ⟨kind, offset, empty, _, rfl⟩
  · have nested : Nested (fun _ => True) node :=
      hb.nested (split ▸ ho).right.left (edged_everywhere _)
    have missed : node.span.contains t.span = false :=
      not_contains_of_outside hb.ne_nil (outside.part split) filled (by simp [hb.span_eq])
    cases hh : node.houses t with
    | false => rfl
    | true =>
      rw [houses_contains nested hh] at missed
      cases missed
  · exact empty_not_houses empty _

def Housed (t : Token) (ts : List Token) (node : Node) : Prop :=
  Ordered ts → t ∈ ts → t.IsName → node.preorder.countP (Node.houses t) = 1

theorem countP_preorder (p : Node → Bool) (node : Node) :
    node.preorder.countP p =
      (Node.preorderAll node.children).countP p + if p node = true then 1 else 0 := by
  rw [Node.preorder_eq, List.countP_cons]

theorem Built.countP_outside (h : Built ts node) (ho : Ordered ts) (outside : t.Outside ts)
    (filled : t.span.start < t.span.stop) : node.preorder.countP (Node.houses t) = 0 := by
  refine List.countP_eq_zero.mpr fun n hm => ?_
  have part : PartOf (fun _ => True) ts n := h.hasParts (edged_everywhere _) n hm
  simp [part.houses_outside ho outside filled]

theorem Forest.countP_outside (h : Forest mark Built place ts nodes) (ho : Ordered ts)
    (outside : t.Outside ts) (filled : t.span.start < t.span.stop) :
    (Node.preorderAll nodes).countP (Node.houses t) = 0 := by
  refine List.countP_eq_zero.mpr fun n hm => ?_
  have parts : Forest mark (HasParts fun _ => True) place ts nodes :=
    h.imp fun _ _ hb => hb.hasParts
  have part := parts.parts trivial (edged_everywhere _) n hm
  simp [part.houses_outside ho outside filled]

/-- A name in the run of a forest is in the run of one of its trees, since no mark is a name. -/
theorem Forest.countP_houses
    (h : Forest Token.IsMark (fun us node => Built us node ∧ Housed t us node) place ts nodes)
    (ho : Ordered ts) (ht : t ∈ ts) (name : t.IsName) :
    (Node.preorderAll nodes).countP (Node.houses t) = 1 := by
  induction h with
  | nil => cases ht
  | token mark _ ih =>
    rcases List.mem_cons.mp ht with rfl | ht
    · exact absurd mark name.not_isMark
    · exact ih ho.tail ht
  | @node place us ts first nodes hb rest ih =>
    have filled := ho.nonempty t ht
    rw [Node.preorderAll, List.countP_append]
    rcases List.mem_append.mp ht with here | behind
    · have outside : t.Outside ts := .inr fun u hu => ho.across here hu
      rw [hb.2 ho.left here name,
        (rest.imp fun _ _ both => both.1).countP_outside ho.right outside filled]
    · have outside : t.Outside us := .inl fun u hu => ho.across hu behind
      rw [hb.1.countP_outside ho.left outside filled, ih ho.right behind]
  | @empty place ts kind nodes empty _ ih =>
    rw [Node.preorderAll, List.countP_append, ih ho ht, countP_preorder, empty_not_houses empty]
    rfl

theorem countP_childless {kind : Kind} {span : Span} (h : Node.houses t ⟨kind, span, []⟩ = true) :
    (Node.preorder ⟨kind, span, []⟩).countP (Node.houses t) = 1 := by
  rw [countP_preorder, if_pos h]
  rfl

theorem housed_leaf {kind : Kind} {u : Token} (h : LeafOf kind u) :
    Housed t [u] ⟨kind, u.span, []⟩ := by
  intro _ ht name
  obtain rfl := List.mem_singleton.mp ht
  apply countP_childless
  rcases name with name | name
  · obtain rfl := h.name.mpr name
    simp [Node.houses, name]
  · obtain rfl := h.macroName.mpr name
    simp [Node.houses, name]

theorem housed_symbol {colon u : Token} (hc : colon.isOperator [':'] = true)
    (hu : isSymbolName u = true) :
    Housed t [colon, u] ⟨.symbol, Grammar.between colon u, []⟩ := by
  intro ho ht name
  have apart := ho.head_before u (by simp)
  have filled := ho.nonempty colon (by simp)
  rcases List.mem_cons.mp ht with rfl | ht
  · exact absurd (isMark_of_operator hc) name.not_isMark
  · obtain rfl := List.mem_singleton.mp ht
    apply countP_childless
    have single : t.kind = .identifier := by
      rcases name with name | name
      · exact name
      · simp [isSymbolName, name] at hu
    have before : colon.span.start < t.span.start := by omega
    simp [Node.houses, Grammar.between, single, before]

theorem housed_unread : Housed t ts (Grammar.unread ts) :=
  fun ho ht _ => countP_childless (contains_of_mem ho ht)

/-- A branch does not account for a name that one of its children reaches over. -/
theorem branch_not_houses {child : Node} (hk : node.kind.IsBranch) (hc : child ∈ node.children)
    (inside : child.span.contains t.span = true) (filled : t.span.start < t.span.stop) :
    node.houses t = false := by
  simp only [Span.contains, Bool.and_eq_true, decide_eq_true_eq] at inside
  unfold Node.houses
  split
  case h_5 path name _ children =>
    refine Bool.eq_false_iff.mpr fun h => ?_
    simp only [Bool.and_eq_true, decide_eq_true_eq] at h
    rw [children] at hc
    rcases List.mem_cons.mp hc with rfl | hc
    · omega
    · obtain rfl := List.mem_singleton.mp hc
      omega
  case h_6 => rfl
  all_goals
    next isLeaf =>
    rw [isLeaf] at hk
    exact absurd hk (by decide)

theorem Forest.contains_name (h : Forest Token.IsMark Built place ts nodes) (ho : Ordered ts)
    (ht : t ∈ ts) (name : t.IsName) : ∃ child ∈ nodes, child.span.contains t.span = true := by
  induction h with
  | nil => cases ht
  | token mark _ ih =>
    rcases List.mem_cons.mp ht with rfl | ht
    · exact absurd mark name.not_isMark
    · exact ih ho.tail ht
  | @node place us ts first nodes hb _ ih =>
    rcases List.mem_append.mp ht with here | behind
    · exact ⟨first, by simp, by rw [hb.span_eq]; exact contains_of_mem ho.left here⟩
    · obtain ⟨child, hc, inside⟩ := ih ho.right behind
      exact ⟨child, by simp [hc], inside⟩
  | empty _ _ ih =>
    obtain ⟨child, hc, inside⟩ := ih ho ht
    exact ⟨child, by simp [hc], inside⟩

theorem housed_branch {kind : Kind} (hk : kind.IsBranch)
    (h : Forest Token.IsMark (fun us node => Built us node ∧ Housed t us node) place ts nodes) :
    Housed t ts ⟨kind, extent ts, nodes⟩ := by
  intro ho ht name
  obtain ⟨child, hc, inside⟩ := (h.imp fun _ _ both => both.1).contains_name ho ht name
  rw [countP_preorder, h.countP_houses ho ht name,
    branch_not_houses hk hc inside (ho.nonempty t ht)]
  rfl

theorem housed_renamed {u : Token} {vs : List Token} {path name : Node}
    (hp : Built us path ∧ Housed t us path) (hu : isAsWord u = true)
    (hn : Built vs name ∧ Housed t vs name) :
    Housed t (us ++ u :: vs) ⟨.importAlias, extent (us ++ u :: vs), [path, name]⟩ := by
  intro ho ht isName
  have filled := ho.nonempty t ht
  have both : (Node.preorderAll [path, name]).countP (Node.houses t) =
      path.preorder.countP (Node.houses t) + name.preorder.countP (Node.houses t) := by
    simp [Node.preorderAll]
  have branch : Kind.IsBranch .importAlias := by decide
  have silent : ∀ child ∈ [path, name], child.span.contains t.span = true →
      Node.houses t ⟨.importAlias, extent (us ++ u :: vs), [path, name]⟩ = false :=
    fun child hc inside => branch_not_houses branch hc inside filled
  rw [countP_preorder, both]
  rcases List.mem_append.mp ht with here | ht
  · have inside := contains_of_mem ho.left here
    rw [← hp.1.span_eq] at inside
    have outside : t.Outside vs := .inr fun v hv => ho.across here (by simp [hv])
    rw [hp.2 ho.left here isName, hn.1.countP_outside ho.right.tail outside filled,
      silent path (by simp) inside]
    rfl
  rcases List.mem_cons.mp ht with rfl | behind
  · -- the word itself is in neither part, and the renaming accounts for it
    have before : t.Outside us := .inl fun a ha => ho.across ha (by simp)
    have after : t.Outside vs := .inr ho.right.head_before
    have houses : Node.houses t ⟨.importAlias, extent (us ++ t :: vs), [path, name]⟩ = true := by
      have first := extent_apart (fun _ ha _ hb => ho.across ha hb) hp.1.ne_nil
        (List.cons_ne_nil t vs)
      have last := @extent_apart [t] vs
        (fun _ ha _ hb => @Ordered.across [t] vs ho.right _ _ ha hb) (by simp) hn.1.ne_nil
      rw [← hp.1.span_eq, extent_cons_start] at first
      rw [← hn.1.span_eq, extent_singleton] at last
      simp [Node.houses, hu, first, last]
    rw [hp.1.countP_outside ho.left before filled, hn.1.countP_outside ho.right.tail after filled,
      if_pos houses]
  · have inside := contains_of_mem ho.right.tail behind
    rw [← hn.1.span_eq] at inside
    have outside : t.Outside us := .inl fun a ha => ho.across ha (by simp [behind])
    rw [hn.2 ho.right.tail behind isName, hp.1.countP_outside ho.left outside filled,
      silent name (by simp) inside]
    rfl

theorem Built.housed (h : Built ts node) : Housed t ts node := by
  refine h.induct ?_ ?_ ?_ ?_ ?_
  · intro kind u hl
    exact housed_leaf hl
  · intro colon u hc hu
    exact housed_symbol hc hu
  · intro ts _
    exact housed_unread
  · intro us u vs path name hp hu hn
    exact housed_renamed hp hu hn
  · intro kind ts children hk _ forest
    exact housed_branch hk forest

end Housing

section Leaves

variable {edge : Nat → Prop} {mark : Token → Prop} {place : Nat} {ts : List Token} {node : Node}
  {nodes : List Node}

/-- A leaf stands for one token, but for a symbol, which stands for a colon and the next token. -/
theorem PartOf.leaf (h : PartOf edge ts node) (hk : node.kind.isLeaf = true) :
    (∃ t ∈ ts, LeafOf node.kind t ∧ node.span = t.span) ∨
      node.kind = .symbol ∧ ∃ before colon t after, ts = before ++ colon :: t :: after ∧
        colon.isOperator [':'] = true ∧ node.span = Grammar.between colon t := by
  rcases h with ⟨before, us, after, rfl, hb⟩ | ⟨kind, offset, empty, _, rfl⟩
  · cases hb with
    | leaf hl => exact .inl ⟨_, by simp, hl, rfl⟩
    | @symbol colon t hc _ => exact .inr ⟨rfl, before, colon, t, after, by simp, hc, rfl⟩
    | unread _ => cases hk
    | renamed _ _ _ => cases hk
    | branch branch _ _ =>
      rw [branch.1] at hk
      cases hk
  · rw [empty.isBranch.1] at hk
    cases hk

/-- One token of a run has a given place in it. -/
theorem Ordered.countP_span (ho : Ordered ts) {t : Token} (ht : t ∈ ts) {p : Token → Bool}
    (hp : p t = true) : ts.countP (fun u => p u && u.span == t.span) = 1 := by
  have filled := ho.nonempty t ht
  obtain ⟨before, after, rfl⟩ := List.append_of_mem ht
  have front : before.countP (fun u => p u && u.span == t.span) = 0 := by
    refine List.countP_eq_zero.mpr fun u hu same => ?_
    simp only [Bool.and_eq_true, beq_iff_eq] at same
    have apart := ho.across hu (List.mem_cons_self (a := t) (l := after))
    rw [same.2] at apart
    omega
  have back : after.countP (fun u => p u && u.span == t.span) = 0 := by
    refine List.countP_eq_zero.mpr fun u hu same => ?_
    simp only [Bool.and_eq_true, beq_iff_eq] at same
    have apart := ho.right.head_before u hu
    rw [same.2] at apart
    omega
  rw [List.countP_append, List.countP_cons, front, back]
  simp [hp]

theorem PartOf.countP_leaf (h : PartOf edge ts node) (ho : Ordered ts) {kind : Token.Kind}
    (leaf : node.kind.isLeaf = true) (single : node.kind ≠ .symbol)
    (spelled : ∀ t, LeafOf node.kind t → t.kind = kind) :
    ts.countP (fun t => t.kind == kind && t.span == node.span) = 1 := by
  rcases h.leaf leaf with ⟨t, ht, hl, hs⟩ | ⟨symbol, _⟩
  · rw [hs]
    exact @Ordered.countP_span ts ho t ht (fun u => u.kind == kind) (by simp [spelled t hl])
  · exact absurd symbol single

def Node.Before (a b : Node) : Prop := a.span.start < b.span.start ∧ a.span.stop ≤ b.span.start

def LeavesInOrder (ts : List Token) (node : Node) : Prop :=
  Ordered ts → (node.preorder.filter Node.isLeafNode).Pairwise Node.Before

theorem PartOf.built (h : PartOf edge ts node) (hl : node.isLeafNode = true) :
    ∃ before us after, ts = before ++ (us ++ after) ∧ Built us node := by
  rcases h with built | ⟨kind, offset, empty, _, rfl⟩
  · exact built
  · rw [isLeafNode_branch empty.isBranch] at hl
    cases hl

/-- Leaves of parts one behind the other are in order. -/
theorem before_of_parts {us vs : List Token} {a b : Node} (ho : Ordered (us ++ vs))
    (ha : PartOf edge us a) (la : a.isLeafNode = true) (hb : PartOf edge vs b)
    (lb : b.isLeafNode = true) : a.Before b := by
  obtain ⟨before, xs, after, rfl, hx⟩ := ha.built la
  obtain ⟨before', ys, after', rfl, hy⟩ := hb.built lb
  have apart := @extent_apart xs ys (fun _ hx _ hy => ho.across (by simp [hx]) (by simp [hy]))
    hx.ne_nil hy.ne_nil
  have filled := extent_nonempty ho.left.right.left hx.ne_nil
  rw [← hx.span_eq] at apart filled
  rw [← hy.span_eq] at apart
  exact ⟨by omega, apart⟩

theorem Forest.leavesInOrder
    (h : Forest mark (fun us node => Built us node ∧ LeavesInOrder us node) place ts nodes)
    (ho : Ordered ts) :
    ((Node.preorderAll nodes).filter Node.isLeafNode).Pairwise Node.Before := by
  induction h with
  | nil => simp [Node.preorderAll]
  | token _ _ ih => exact ih ho.tail
  | @node place us ts first nodes hb rest ih =>
    rw [Node.preorderAll, List.filter_append]
    refine List.pairwise_append.mpr ⟨hb.2 ho.left, ih ho.right, fun a ha b hb' => ?_⟩
    obtain ⟨ma, la⟩ := List.mem_filter.mp ha
    obtain ⟨mb, lb⟩ := List.mem_filter.mp hb'
    have parts : Forest mark (HasParts fun _ => True) _ ts nodes :=
      rest.imp fun _ _ both => both.1.hasParts
    exact before_of_parts ho (hb.1.hasParts (edged_everywhere _) a ma) la
      (parts.parts trivial (edged_everywhere _) b mb) lb
  | @empty place ts kind nodes empty _ ih =>
    have branch : Node.isLeafNode ⟨kind, .emptyAt place, []⟩ = false :=
      isLeafNode_branch empty.isBranch
    rw [Node.preorderAll, List.filter_append, Node.preorder_eq]
    simpa [branch, Node.preorderAll] using ih ho

theorem leavesInOrder_childless (h : node.children = []) : LeavesInOrder ts node := by
  intro _
  rw [Node.preorder_eq, h, Node.preorderAll]
  exact (List.pairwise_singleton _ _).sublist List.filter_sublist

theorem leavesInOrder_branch (hk : node.kind.IsBranch)
    (h : Forest mark (fun us n => Built us n ∧ LeavesInOrder us n) place ts node.children) :
    LeavesInOrder ts node := by
  intro ho
  rw [Node.preorder_eq, List.filter_cons_of_neg (by simp [isLeafNode_branch hk])]
  exact h.leavesInOrder ho

theorem Built.leavesInOrder (h : Built ts node) : LeavesInOrder ts node := by
  have branch : Kind.IsBranch .importAlias := by decide
  refine h.induct ?_ ?_ ?_ ?_ ?_
  · intro kind t _
    exact leavesInOrder_childless rfl
  · intro colon t _ _
    exact leavesInOrder_childless rfl
  · intro ts _
    exact leavesInOrder_childless rfl
  · intro us t vs path name hp _ hn
    exact @leavesInOrder_branch _ 0 _ _ branch (.renamed hp hn)
  · intro kind ts children hk _ forest
    exact leavesInOrder_branch hk forest

end Leaves

/-- Names are conserved from tokens to the tree. Each name is accounted for by one node: as a leaf,
inside an unread leaf, as the second token of a symbol or as the word `as` of a renaming. Each leaf
for a name has one token, each symbol is a colon and the token behind it, and the leaves follow one
another in pre-order. -/
theorem names_conserved (text : Text) :
    (∀ t ∈ tokenizeRecovering text, t.IsName →
      (parse text).preorder.countP (Node.houses t) = 1) ∧
    (∀ node ∈ (parse text).preorder,
      (node.kind = .identifier → (tokenizeRecovering text).countP
        (fun t => t.kind == .identifier && t.span == node.span) = 1) ∧
      (node.kind = .macroIdentifier → (tokenizeRecovering text).countP
        (fun t => t.kind == .macroName && t.span == node.span) = 1) ∧
      (node.kind = .symbol → ∃ before colon t after,
        tokenizeRecovering text = before ++ colon :: t :: after ∧
        colon.isOperator [':'] = true ∧ node.span = ⟨colon.span.start, t.span.stop⟩)) ∧
    ((parse text).preorder.filter Node.isLeafNode).Pairwise fun a b =>
      a.span.start < b.span.start ∧ a.span.stop ≤ b.span.start := by
  obtain ⟨_, ordered, _⟩ := tokenizeRecovering_wellPlaced text
  obtain ⟨items, listing, _, root⟩ := parse_listing text
  have forest := listing.forest 0
  rw [root]
  refine ⟨fun t ht name => ?_, fun node hm => ?_, ?_⟩
  · have housed := forest.imp fun us node hb => (⟨hb, hb.housed⟩ : Built us node ∧ Housed t us node)
    rw [countP_preorder, housed.countP_houses ordered ht name]
    rfl
  · rw [Node.preorder_eq] at hm
    rcases List.mem_cons.mp hm with rfl | hm
    · refine ⟨fun h => ?_, fun h => ?_, fun h => ?_⟩
      · cases h
      · cases h
      · cases h
    · have part : PartOf (fun _ => True) _ node :=
        listing.parts (edged_everywhere _) node hm
      refine ⟨fun hk => ?_, fun hk => ?_, fun hk => ?_⟩
      · exact part.countP_leaf ordered (by simp [hk, Kind.isLeaf]) (by simp [hk])
          fun _ hl => hl.name.mp hk
      · exact part.countP_leaf ordered (by simp [hk, Kind.isLeaf]) (by simp [hk])
          fun _ hl => hl.macroName.mp hk
      · rcases part.leaf (by simp [hk, Kind.isLeaf]) with ⟨_, _, hl, _⟩ | ⟨_, symbol⟩
        · exact absurd hk hl.single
        · exact symbol
  · have leaves := forest.imp fun us node hb =>
      (⟨hb, hb.leavesInOrder⟩ : Built us node ∧ LeavesInOrder us node)
    have branch : Kind.IsBranch .sourceFile := by decide
    exact @leavesInOrder_branch _ 0 _ ⟨.sourceFile, _, items⟩ branch leaves ordered

end CellBindings
