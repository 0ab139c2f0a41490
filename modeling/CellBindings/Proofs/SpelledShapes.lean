import CellBindings.Proofs.BuiltTrees

/-!
The shapes of nodes that the rules share, and the runs they stand for. A rule of the grammar gives
a tree that is spelled by the tokens it takes: built from them, the last of them closed. Nodes that
reach over their children, from a word to their last child, or from bracket to bracket all have the
extent of their run.
-/

namespace CellBindings

open Grammar (upTo upToLast bracketed placeBlock leaf)

theorem Span.cover_assoc (a b c : Span) : (a.cover b).cover c = a.cover (b.cover c) := by
  ext
  · simp only [Span.cover]
    omega
  · simp only [Span.cover]
    omega

theorem foldl_cover (span : Span) (first : Node) (rest : List Node) :
    (first :: rest).foldl (fun span node => span.cover node.span) span =
      span.cover (Node.coverAll (first :: rest)) := by
  induction rest generalizing span first with
  | nil => rfl
  | cons node rest ih =>
    have hn : Node.coverAll (first :: node :: rest) =
        first.span.cover (Node.coverAll (node :: rest)) := ih first.span node
    rw [List.foldl_cons, ih, hn, Span.cover_assoc]

theorem coverAll_cons (node : Node) {nodes : List Node} (h : nodes ≠ []) :
    Node.coverAll (node :: nodes) = node.span.cover (Node.coverAll nodes) := by
  cases nodes with
  | nil => exact absurd rfl h
  | cons first rest => exact foldl_cover node.span first rest

/-- The run does not end in what the text leaves open. -/
def Closed (ts : List Token) : Prop := ∀ t ∈ ts.getLast?, t.kind ≠ .error

structure Spelled (ts : List Token) (node : Node) : Prop where
  built : Built ts node
  closed : Closed ts

def Strewn (ts : List Token) (nodes : List Node) : Prop :=
  ∀ place, Forest Token.IsMark Built place ts nodes

variable {kind : Kind} {t first last : Token} {us vs ts gap tail : List Token} {node : Node}
  {nodes : List Node}

theorem closed_singleton (h : t.kind ≠ .error) : Closed [t] := by
  intro u hu
  obtain rfl : t = u := by simpa using hu
  exact h

theorem closed_append (us : List Token) (hn : vs ≠ []) (h : Closed vs) : Closed (us ++ vs) := by
  intro t ht
  apply h t
  simpa [List.getLast?_append, List.getLast?_eq_some_getLast hn] using ht

theorem SeparatedBy.imp {α : Type} {B B' : List Token → Prop} {P Q : List Token → α → Prop}
    {items : List α} (hb : ∀ us, B us → B' us) (h : ∀ us a, P us a → Q us a)
    (hs : SeparatedBy B P ts items) : SeparatedBy B' Q ts items := by
  induction hs with
  | one ha => exact .one (h _ _ ha)
  | more ha hg _ ih => exact .more (h _ _ ha) (hb _ hg) ih

theorem SeparatedBy.items_ne_nil {α : Type} {B : List Token → Prop} {P : List Token → α → Prop}
    {items : List α} (h : SeparatedBy B P ts items) : items ≠ [] := by
  cases h <;> simp

namespace Joined

/-- A node right before others. -/
theorem next {built : List Token → Node → Prop} (h : built us node) (rest : Joined built ts nodes) :
    Joined built (us ++ ts) (node :: nodes) := by
  have hj : Joined built (us ++ ([] ++ ts)) (node :: nodes) := .more h (by simp) rest
  exact hj

/-- A node with one mark between it and others. -/
theorem past {built : List Token → Node → Prop} (h : built us node) (ht : t.IsMark)
    (rest : Joined built ts nodes) : Joined built (us ++ t :: ts) (node :: nodes) := by
  have hj : Joined built (us ++ ([t] ++ ts)) (node :: nodes) := .more h (by simpa using ht) rest
  exact hj

theorem built (h : Joined Spelled ts nodes) : Joined Built ts nodes :=
  SeparatedBy.imp (fun _ hg => hg) (fun _ _ hs => hs.built) h

theorem ne_nil (h : Joined Built ts nodes) : ts ≠ [] := by
  cases h with
  | one hb => exact hb.ne_nil
  | more hb _ _ => simp [hb.ne_nil]

theorem closed (h : Joined Spelled ts nodes) : Closed ts := by
  induction h with
  | one hs => exact hs.closed
  | more _ _ rest ih =>
    have hn := ne_nil (built rest)
    exact closed_append _ (by simp [hn]) (closed_append _ hn ih)

theorem strewn (h : Joined Built ts nodes) : Strewn ts nodes := by
  induction h with
  | one hb => exact fun _ => .single hb
  | more hb hg _ ih =>
    intro place
    exact .node hb (.after_marks hg (ih _))

theorem coverAll (h : Joined Built ts nodes) (ho : Ordered ts) :
    Node.coverAll nodes = extent ts := by
  induction h with
  | one hb => exact hb.span_eq
  | more hb _ rest ih =>
    rw [coverAll_cons _ rest.items_ne_nil, ih ho.right.right, hb.span_eq]
    exact extent_cover ho hb.ne_nil (ne_nil rest)

theorem getLast (h : Joined Built ts nodes) :
    ∃ node, nodes.getLast? = some node ∧ node.span.stop = (extent ts).stop := by
  induction h with
  | @one us node hb => exact ⟨node, rfl, by rw [hb.span_eq]⟩
  | @more us gap ts node nodes hb _ rest ih =>
    obtain ⟨last, hl, hs⟩ := ih
    have hn := ne_nil rest
    refine ⟨last, by simp [List.getLast?_cons, hl], ?_⟩
    rw [hs, extent_append_stop _ (by simp [hn]), extent_append_stop _ hn]

end Joined

theorem upToLast_joined (h : Joined Built ts nodes) (ho : Ordered (t :: ts)) :
    upToLast t nodes = extent (t :: ts) := by
  obtain ⟨node, hl, hs⟩ := h.getLast
  have ht := ho.nonempty t (by simp)
  have hx := @extent_apart [t] ts (fun _ ha _ hb => @Ordered.across [t] ts ho _ _ ha hb) (by simp)
    h.ne_nil
  have hn := extent_nonempty ho.tail h.ne_nil
  have he := extent_append_stop [t] h.ne_nil
  simp only [extent_singleton, List.cons_append, List.nil_append] at hx he
  simp only [upToLast, hl, upTo]
  ext
  · rfl
  · rw [he]
    show max node.span.stop t.span.start = (extent ts).stop
    omega

theorem built_wrap (hk : kind.IsBranch) (h : Joined Built ts nodes) (ho : Ordered ts) :
    Built ts (.wrap kind nodes) := by
  rw [Node.wrap, h.coverAll ho]
  exact .branch hk h.ne_nil (h.strewn _)

theorem spelled_wrap (hk : kind.IsBranch) (h : Joined Spelled ts nodes) (ho : Ordered ts) :
    Spelled ts (.wrap kind nodes) :=
  ⟨built_wrap hk h.built ho, h.closed⟩

/-- A word with nodes behind it. -/
theorem spelled_lead (hk : kind.IsBranch) (ht : t.IsMark) (h : Joined Spelled ts nodes)
    (ho : Ordered (t :: ts)) : Spelled (t :: ts) ⟨kind, upToLast t nodes, nodes⟩ := by
  rw [upToLast_joined h.built ho]
  refine ⟨.branch hk (List.cons_ne_nil _ _) (.token ht (h.built.strewn _)), ?_⟩
  exact closed_append [t] h.built.ne_nil h.closed

/-- A word with one node behind it. -/
theorem spelled_lead_one (hk : kind.IsBranch) (ht : t.IsMark) (h : Spelled ts node)
    (ho : Ordered (t :: ts)) : Spelled (t :: ts) ⟨kind, upTo t.span.start node, [node]⟩ :=
  spelled_lead hk ht (.one h) ho

/-- A word alone. -/
theorem spelled_word (hk : kind.IsBranch) (ht : t.IsMark) : Spelled [t] ⟨kind, t.span, []⟩ :=
  ⟨.branch hk (List.cons_ne_nil _ _) (.token ht .nil), closed_singleton ht.2.2⟩

theorem spelled_leaf (h : LeafOf kind t) : Spelled [t] (leaf kind t) :=
  ⟨.leaf h, closed_singleton h.closed⟩

theorem spelled_bracketed (hk : kind.IsBranch) (hf : first.IsMark) (hl : last.IsMark)
    (h : Forest Token.IsMark Built first.span.stop ts nodes) :
    Spelled (first :: (ts ++ [last])) (bracketed kind first last nodes) := by
  refine ⟨?_, closed_append (first :: ts) (List.cons_ne_nil _ _) (closed_singleton hl.2.2)⟩
  rw [bracketed, ← extent_enclosed first last ts]
  have end_mark : Forest Token.IsMark Built (stopAfter first.span.stop ts) [last] [] :=
    .token hl .nil
  refine .branch hk (List.cons_ne_nil _ _) (.token hf ?_)
  simpa using h.append end_mark

/-- A node that reaches from its first child to a bracket. -/
theorem spelled_suffixed (hk : kind.IsBranch) (hb : Spelled us node) (hl : last.IsMark)
    (h : Strewn ts nodes) :
    Spelled (us ++ (ts ++ [last])) ⟨kind, ⟨node.span.start, last.span.stop⟩, node :: nodes⟩ := by
  have hn : ts ++ [last] ≠ [] := by simp
  refine ⟨?_, closed_append _ hn (closed_append _ (List.cons_ne_nil _ _) (closed_singleton hl.2.2))⟩
  have hs : (⟨node.span.start, last.span.stop⟩ : Span) = extent (us ++ (ts ++ [last])) := by
    ext
    · rw [extent_append_start _ hb.built.ne_nil, hb.built.span_eq]
    · rw [extent_append_stop _ hn, extent_append_stop _ (List.cons_ne_nil _ _)]
      rfl
  have end_mark : ∀ place, Forest Token.IsMark Built place [last] [] := fun _ => .token hl .nil
  rw [hs]
  refine .branch hk (by simp) (.node hb.built ?_)
  simpa using (h _).append (end_mark _)

/-- A list of parts that has a place of its own when there are none. -/
theorem placed_forest (hk : kind.IsBranch) (he : kind.MayBeEmpty) (ho : Ordered ts)
    (h : (ts = [] ∧ nodes = []) ∨ Joined Spelled ts nodes) (place : Nat) :
    Forest Token.IsMark Built place ts [Grammar.placed kind place nodes] ∧
      (Grammar.placed kind place nodes).span.stop = stopAfter place ts := by
  rcases h with ⟨rfl, rfl⟩ | h
  · exact ⟨.empty he .nil, rfl⟩
  · have hb := built_wrap hk h.built ho
    rw [Grammar.placed, if_neg (by simpa using h.items_ne_nil)]
    refine ⟨(Joined.strewn (.one hb)) place, ?_⟩
    rw [hb.span_eq, stopAfter_of_ne_nil _ hb.ne_nil]

inductive BlockRun : List Token → Node → Prop where
  | empty {ts span} : (∀ t ∈ ts, t.IsMark) → BlockRun ts ⟨.block, span, []⟩
  | items {us vs ws node} : (∀ t ∈ us, t.IsMark) → Built vs node → node.children ≠ [] →
      (∀ t ∈ ws, t.IsMark) → BlockRun (us ++ (vs ++ ws)) node

theorem BlockRun.forest (h : BlockRun ts node) (place : Nat) :
    Forest Token.IsMark Built place ts [placeBlock node place] := by
  cases h with
  | empty marks => exact .empty (.inl rfl) (.of_marks marks)
  | items before hb hn behind =>
    rw [placeBlock, if_neg (by simpa using hn)]
    exact .after_marks before (.node hb (.of_marks behind))

/-- A clause: what stands before its block, and the block. The separators behind the block are not
part of the clause. -/
theorem BlockRun.clause (h : BlockRun ts node) (kind : Kind) (hk : kind.IsBranch) (hu : us ≠ [])
    (front : Forest Token.IsMark Built (extent us).start us nodes) (ho : Ordered (us ++ ts)) :
    Strewn (us ++ ts)
      [⟨kind, upTo (extent us).start (placeBlock node (extent us).stop),
        nodes ++ [placeBlock node (extent us).stop]⟩] := by
  have hx := extent_nonempty ho.left hu
  have hs := stopAfter_of_ne_nil (extent us).start hu
  intro place
  cases h with
  | @empty ts span marks =>
    have hb : Built us ⟨kind, extent us, nodes ++ [⟨.block, .emptyAt (extent us).stop, []⟩]⟩ := by
      refine .branch hk hu ?_
      have body : Forest Token.IsMark Built (stopAfter (extent us).start us) []
          [⟨.block, .emptyAt (stopAfter (extent us).start us), []⟩] := .empty (.inl rfl) .nil
      simpa [hs] using front.append body
    have he : upTo (extent us).start (placeBlock ⟨.block, span, []⟩ (extent us).stop) = extent us := by
      ext
      · rfl
      · show max (extent us).stop (extent us).start = (extent us).stop
        omega
    rw [he]
    exact .node hb (.of_marks marks)
  | @items before vs behind node mb hb hn ma =>
    have hv := hb.ne_nil
    have hbv : before ++ vs ≠ [] := by simp [hv]
    have split : us ++ (before ++ (vs ++ behind)) = (us ++ (before ++ vs)) ++ behind := by simp
    have run := Ordered.left (split ▸ ho)
    have apart := extent_apart (fun a ha b hb => run.across ha (List.mem_append_right before hb)) hu hv
    have hy := extent_nonempty run.right.right hv
    rw [placeBlock, if_neg (by simpa using hn), split]
    have he : upTo (extent us).start node = extent (us ++ (before ++ vs)) := by
      ext
      · rw [extent_append_start _ hu]
        rfl
      · rw [extent_append_stop _ hbv, extent_append_stop _ hv, ← hb.span_eq]
        show max node.span.stop (extent us).start = node.span.stop
        rw [hb.span_eq]
        omega
    have body : Forest Token.IsMark Built (stopAfter (extent us).start us) (before ++ vs) [node] :=
      .after_marks mb (Joined.strewn (.one hb) _)
    rw [he]
    refine .node (.branch hk (by simp [hu]) ?_) (.of_marks ma)
    rw [extent_append_start _ hu]
    exact front.append body

theorem strewn_pieces (h : Pieces (fun ts node => Strewn ts [node]) ts nodes) :
    Strewn ts nodes := by
  induction h with
  | nil => exact fun _ => .nil
  | cons hb _ ih => exact fun place => (hb place).append (ih _)

theorem Spelled.strewn (h : Spelled ts node) : Strewn ts [node] := Joined.strewn (.one h.built)

end CellBindings
