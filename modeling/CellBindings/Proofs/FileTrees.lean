import CellBindings.Proofs.ParserStops
import CellBindings.Proofs.SpelledRules
import CellBindings.Proofs.TokenPlaces

/-!
The tree of a file. Reading a file cannot fail: an item stops at a separator, at what the text
leaves open or at its end, and each of these is read next. So the root has an item for every token
that separates none, and nothing else.
-/

namespace CellBindings

open CellBindings.Parser Grammar

inductive Listing : List Token → List Node → Prop where
  | nil : Listing [] []
  | separator {t ts nodes} : isSeparator t = true → Listing ts nodes → Listing (t :: ts) nodes
  | item {us ts node nodes} : Built us node → Listing ts nodes → Listing (us ++ ts) (node :: nodes)

namespace Listing

variable {us vs ts : List Token} {node : Node} {nodes more : List Node}

theorem append (front : Listing us nodes) (back : Listing vs more) :
    Listing (us ++ vs) (nodes ++ more) := by
  induction front with
  | nil => exact back
  | separator ht _ ih => exact .separator ht ih
  | item hb _ ih =>
    rw [List.append_assoc]
    exact .item hb ih

theorem of_separators (h : ∀ t ∈ ts, isSeparator t = true) : Listing ts [] := by
  induction ts with
  | nil => exact .nil
  | cons t ts ih => exact .separator (h t (by simp)) (ih fun u hu => h u (by simp [hu]))

theorem one (h : Built ts node) : Listing ts [node] := by
  simpa using Listing.item h .nil

theorem of_separatedBy
    (h : SeparatedBy (fun gap => ∀ t ∈ gap, isSeparator t = true) Built ts nodes) :
    Listing ts nodes := by
  induction h with
  | one hb => exact .one hb
  | more hb hg _ ih => exact .item hb ((of_separators hg).append ih)

/-- Separators are marks, so a listing is a forest wherever it is read. -/
theorem forest (h : Listing ts nodes) (place : Nat) :
    Forest Token.IsMark Built place ts nodes := by
  induction h generalizing place with
  | nil => exact .nil
  | separator ht _ ih => exact .token (isMark_of_separator ht) (ih _)
  | item hb _ ih => exact .node hb (ih _)

end Listing

theorem pieces_separators {ts items : List Token}
    (h : Pieces (fun ts t => ts = [t] ∧ isSeparator t = true) ts items) :
    ∀ t ∈ ts, isSeparator t = true := by
  obtain ⟨rfl, hs⟩ := pieces_tokens h
  exact hs

theorem closed_of_read {ts : List Token} (h : ∀ t ∈ ts, t.kind ≠ .error) : Closed ts :=
  fun t ht => h t (List.mem_of_getLast? ht)

theorem Closed.append {us vs : List Token} (hu : Closed us) (hv : Closed vs) :
    Closed (us ++ vs) := by
  by_cases hn : vs = []
  · rwa [hn, List.append_nil]
  · exact closed_append us hn hv

/-- What the text leaves open is part of no item. -/
theorem yields_fileItem : Yields fileItem Spelled := by
  refine Reads.orElse ?_ ?_
  · refine (Reads.rule (by simp [Row.answers])).bind fun us node hs => ?_
    refine (Reads.orElse (Reads.ahead _) Reads.endOfTokens).bind fun _ _ he => ?_
    subst he
    exact Reads.pure (by simpa using hs)
  · refine (Reads.many1 (Reads.token _)).bind fun ts items ⟨hn, pieces⟩ => Reads.pure ?_
    obtain ⟨rfl, read⟩ := pieces_tokens pieces
    rw [List.append_nil]
    refine ⟨.unread hn, closed_of_read fun t ht isError => ?_⟩
    simpa [Grammar.isError, isError] using read t ht

/-- What is left open is an unread leaf of its own. -/
theorem yields_failure :
    Yields (leaf .error <$> token isError) fun ts node =>
      ∃ t, ts = [t] ∧ isError t = true ∧ node = leaf .error t := by
  refine Reads.map (Reads.token _) ?_
  rintro _ t ⟨rfl, ht⟩
  exact ⟨t, rfl, ht, rfl⟩

/-- The tokens of a file: a closed run with its items, then at most one token for what the text
leaves open, which is a leaf behind them. -/
def FileRun (ts : List Token) (children : List Node) : Prop :=
  ∃ run last items failure, ts = run ++ last ∧ children = items ++ failure ∧ Closed run ∧
    Listing run items ∧
      (last = [] ∧ failure = [] ∨
        ∃ t, last = [t] ∧ isError t = true ∧ failure = [leaf .error t])

theorem FileRun.listing {ts : List Token} {children : List Node} (h : FileRun ts children) :
    Listing ts children := by
  obtain ⟨run, last, items, failure, rfl, rfl, _, listing, end_of_file⟩ := h
  refine listing.append ?_
  rcases end_of_file with ⟨rfl, rfl⟩ | ⟨t, rfl, _, rfl⟩
  · exact .nil
  · exact .one (Built.unread (List.cons_ne_nil t []))

theorem yields_file :
    Yields file fun ts root => ∃ items, root = .wrap .sourceFile items ∧ FileRun ts items := by
  have separators := Reads.many (@Reads.token Spelled isSeparator)
  refine separators.bind fun before _ hb => ?_
  refine (Reads.separated yields_fileItem (Reads.many1 (Reads.token _))).bind fun run items h => ?_
  refine separators.bind fun behind _ ha => ?_
  refine (Reads.option yields_failure).bind fun last failure hf => ?_
  refine Reads.endOfTokens.bind fun _ _ he => Reads.pure ?_
  subst he
  have marks {ts items} (pieces : Pieces (fun ts t => ts = [t] ∧ isSeparator t = true) ts items) :
      Closed ts :=
    closed_of_read fun t ht => (isMark_of_separator (pieces_separators pieces t ht)).2.2
  have list_items : Listing run items ∧ Closed run := by
    rcases h with ⟨rfl, rfl⟩ | h
    · exact ⟨.nil, closed_of_read (by simp)⟩
    · have gaps : SeparatedBy (fun gap => ∀ t ∈ gap, isSeparator t = true) Spelled run items := by
        refine SeparatedBy.imp ?_ (fun _ _ hs => hs) h
        rintro ts ⟨_, _, pieces⟩
        exact pieces_separators pieces
      refine ⟨.of_separatedBy (gaps.imp (fun _ hg => hg) fun _ _ hs => hs.built), ?_⟩
      exact Joined.closed (gaps.imp (fun _ hg t ht => isMark_of_separator (hg t ht)) fun _ _ h => h)
  have front := (Listing.of_separators (pieces_separators hb)).append list_items.1
  have all := front.append (Listing.of_separators (pieces_separators ha))
  refine ⟨_, rfl, before ++ run ++ behind, last, items, failure.toList, by simp, rfl, ?_,
    by simpa using all, ?_⟩
  · exact ((marks hb).append list_items.2).append (marks ha)
  · rcases hf.option with ⟨rfl, rfl⟩ | ⟨node, rfl, t, rfl, ht, rfl⟩
    · exact .inl ⟨rfl, rfl⟩
    · exact .inr ⟨t, rfl, ht, rfl⟩

def AtBoundary (chart : Chart) : Prop :=
  ∀ row ∈ chart.head?, isSeparator row.token = true ∨ isError row.token = true

def Settled (chart : Chart) : Prop :=
  ∀ row ∈ (chart.dropWhile fun row => isSeparator row.token).head?, isError row.token = true

section Files

variable {chart rest : Chart}

theorem atBoundary_of_token (h : token (fun t => !isSeparator t && !isError t) chart = none) :
    AtBoundary chart := by
  intro row hr
  have refused := token_eq_none.mp h row hr
  simpa [← Bool.not_or] using refused

theorem fileItem_some {node : Node} (h : fileItem chart = some (node, rest)) : AtBoundary rest := by
  rcases orElse_eq_some.mp h with h | ⟨_, h⟩
  · obtain ⟨_, mid, _, h⟩ := bind_eq_some.mp h
    obtain ⟨_, last, hl, h⟩ := bind_eq_some.mp h
    obtain ⟨_, rfl⟩ := pure_eq_some.mp h
    rcases orElse_eq_some.mp hl with hl | ⟨_, hl⟩
    · obtain ⟨rfl, t, ht⟩ := ahead_eq_some hl
      intro row hr
      cases mid with
      | nil => cases hr
      | cons first mid =>
        cases hr
        simp only [token] at ht
        split at ht
        · next accepted => simpa using accepted
        · cases ht
    · cases mid with
      | nil =>
        cases hl
        exact fun row hr => by cases hr
      | cons first mid => cases hl
  · obtain ⟨tokens, last, ht, h⟩ := bind_eq_some.mp h
    obtain ⟨_, rfl⟩ := pure_eq_some.mp h
    rw [many1_token ht]
    exact atBoundary_of_token (token_dropWhile _ _)

theorem fileItem_none (h : fileItem chart = none) : AtBoundary chart := by
  obtain ⟨_, h⟩ := orElse_eq_none.mp h
  rcases bind_eq_none.mp h with h | ⟨_, _, _, h⟩
  · exact atBoundary_of_token (many1_eq_none h)
  · cases h

theorem settled_of_boundary
    (h : AtBoundary (chart.dropWhile fun row => isSeparator row.token)) : Settled chart := by
  intro row hr
  have refused := token_eq_none.mp (token_dropWhile isSeparator chart) row hr
  rcases h row hr with hs | he
  · rw [refused] at hs
    cases hs
  · exact he

/-- No item follows, so what follows the separators ends the file. -/
theorem settled_of_no_item (boundary : AtBoundary chart)
    (h : (do let _ ← many1 separator; fileItem : Parser Node) chart = none) : Settled chart := by
  rcases bind_eq_none.mp h with h | ⟨_, mid, hm, h⟩
  · apply settled_of_boundary
    rwa [dropWhile_refused (many1_eq_none h)]
  · apply settled_of_boundary
    rw [← many1_token hm]
    exact fileItem_none h

theorem separated_settled {items : List Node} (hc : Chart.Meets Spelled chart)
    (ho : Ordered (Chart.tokens chart)) (start : token isSeparator chart = none)
    (h : separated fileItem (many1 separator) chart = some (items, rest)) : Settled rest := by
  rcases orElse_eq_some.mp h with h | ⟨hn, h⟩
  · obtain ⟨first, mid, hf, h⟩ := bind_eq_some.mp h
    obtain ⟨more, last, hm, h⟩ := bind_eq_some.mp h
    obtain ⟨_, rfl⟩ := pure_eq_some.mp h
    obtain ⟨taken, rfl, _⟩ := yields_fileItem chart hc ho first mid hf
    rw [Chart.tokens_append] at ho
    have reads : Yields (do let _ ← many1 separator; fileItem) fun ts _ => ts ≠ [] := by
      refine (Reads.many1 (Reads.token _)).bind fun us _ _ => ?_
      exact yields_fileItem.mono fun vs node _ hs => by simp [hs.built.ne_nil]
    have boundary : AtBoundary last := by
      refine many_keeps (fun _ _ _ h => ?_) hm (fileItem_some hf)
      obtain ⟨_, _, _, h⟩ := bind_eq_some.mp h
      exact fileItem_some h
    exact settled_of_no_item boundary (reads.many_stops (fun _ _ hn => hn) hc.right ho.right hm)
  · obtain ⟨_, rfl⟩ := pure_eq_some.mp h
    rcases bind_eq_none.mp hn with hn | ⟨_, _, _, hn⟩
    · apply settled_of_boundary
      rw [dropWhile_refused start]
      exact fileItem_none hn
    · rcases bind_eq_none.mp hn with hn | ⟨_, _, _, hn⟩
      · cases hn
      · cases hn

/-- What is left open at the end is read, and nothing is left behind it. -/
theorem failure_total (errorLast : ErrorLast (Chart.tokens chart))
    (h : ∀ row ∈ chart.head?, isError row.token = true) :
    ∃ failure, option (leaf .error <$> token isError) chart = some (failure, []) := by
  cases chart with
  | nil => exact ⟨none, orElse_eq_some.mpr (.inr ⟨rfl, rfl⟩)⟩
  | cons row chart =>
    have isError_row : isError row.token = true := h row rfl
    have last : Chart.tokens chart = [] :=
      errorLast [] row.token (Chart.tokens chart) rfl (by simpa [isError] using isError_row)
    obtain rfl : chart = [] := by simpa [Chart.tokens] using last
    refine ⟨some (leaf .error row.token), orElse_eq_some.mpr (.inl ?_)⟩
    refine bind_eq_some.mpr ⟨_, [], bind_eq_some.mpr ⟨row.token, [], ?_, rfl⟩, rfl⟩
    simp [token, isError_row]

theorem ErrorLast.right {us vs : List Token} (h : ErrorLast (us ++ vs)) : ErrorLast vs :=
  fun before t after split => h (us ++ before) t after (by simp [split])

/-- A file is read to its end. -/
theorem file_total (hc : Chart.Meets Spelled chart) (ho : Ordered (Chart.tokens chart))
    (errorLast : ErrorLast (Chart.tokens chart)) : ∃ root, file chart = some (root, []) := by
  obtain ⟨_, h1⟩ := many_token isSeparator chart
  have start := token_dropWhile isSeparator chart
  obtain ⟨before, hb⟩ := @List.dropWhile_suffix _ chart fun row => isSeparator row.token
  generalize chart.dropWhile (fun row => isSeparator row.token) = body at h1 hb start
  rw [← hb, Chart.tokens_append] at ho errorLast
  have hcb := (hb ▸ hc).right
  -- the items can be read whatever follows; that they stop at a boundary is what matters
  obtain ⟨items, tail, h2⟩ := separated_total fileItem (many1 separator) body
  have settled := separated_settled hcb ho.right start h2
  obtain ⟨run, rfl, _⟩ := Reads.separated yields_fileItem (Reads.many1 (Reads.token _)) body hcb
    ho.right _ _ h2
  rw [Chart.tokens_append] at errorLast
  obtain ⟨_, h3⟩ := many_token isSeparator tail
  obtain ⟨between, ht⟩ := @List.dropWhile_suffix _ tail fun row => isSeparator row.token
  rw [← ht, Chart.tokens_append] at errorLast
  obtain ⟨failure, h4⟩ := failure_total errorLast.right.right.right settled
  exact ⟨_, bind_eq_some.mpr ⟨_, _, h1, bind_eq_some.mpr ⟨_, _, h2, bind_eq_some.mpr
    ⟨_, _, h3, bind_eq_some.mpr ⟨_, _, h4, rfl⟩⟩⟩⟩⟩

end Files

/-- Each answer in a chart takes a token. -/
theorem Chart.Meets.progress {chart : Chart} (h : Chart.Meets Spelled chart) :
    ∀ row ∈ chart, ∀ answer ∈ row.answers, ∀ node count,
      answer.get = some (node, count) → 0 < count := by
  induction chart with
  | nil => simp
  | cons first chart ih =>
    intro row hr answer ha node count found
    rcases List.mem_cons.mp hr with rfl | hr
    · obtain ⟨_, spelled⟩ := h.1 answer ha node count found
      refine Nat.pos_of_ne_zero fun none => spelled.built.ne_nil ?_
      simp [none]
    · exact ih h.2 row hr answer ha node count found

/-- A text has a tree, and its tokens are those of a file. -/
theorem parse_fileRun (text : Text) :
    ∃ items, FileRun (tokenizeRecovering text) items ∧ parse? text = some (parse text) ∧
      parse text = ⟨.sourceFile, ⟨0, text.byteSize⟩, items⟩ := by
  obtain ⟨_, ordered, errorLast⟩ := tokenizeRecovering_wellPlaced text
  have meets := ofTokens_meets ordered
  have tokens := tokens_ofTokens (tokenizeRecovering text)
  rw [← tokens] at ordered errorLast
  obtain ⟨root, hr⟩ := file_total meets ordered errorLast
  obtain ⟨taken, ht, items, rfl, run⟩ := yields_file _ meets ordered root [] hr
  rw [List.append_nil] at ht
  rw [← ht, tokens] at run
  have found : parse? text = some ⟨.sourceFile, ⟨0, text.byteSize⟩, items⟩ := by
    simp [parse?, hr, Node.wrap]
  have same : parse text = ⟨.sourceFile, ⟨0, text.byteSize⟩, items⟩ := by
    simp [parse, found]
  exact ⟨items, run, by rw [found, same], same⟩

/-- The items of a text list its tokens. -/
theorem parse_listing (text : Text) :
    ∃ items, Listing (tokenizeRecovering text) items ∧ parse? text = some (parse text) ∧
      parse text = ⟨.sourceFile, ⟨0, text.byteSize⟩, items⟩ := by
  obtain ⟨items, run, parsed⟩ := parse_fileRun text
  exact ⟨items, run.listing, parsed⟩

end CellBindings
