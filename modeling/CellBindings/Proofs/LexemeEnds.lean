import Mathlib.Data.List.TakeWhile
import CellBindings.Proofs.ScannerMoves

/-!
Lexemes end at a blank. No name, number or operator goes on over a blank or a line break, and a
comment or literal that has been closed looks at nothing behind it. So what a text is cut into stays
the same, up to the rest, if more text is put behind it.
-/

namespace CellBindings

namespace Text

def Parted (w : Text) : Prop := ∃ c v, w = c :: v ∧ (c = ' ' ∨ c = '\n')

variable {p : Char → Bool} {cs w : Text}

theorem parted_blank (v : Text) : Parted (' ' :: v) := ⟨' ', v, rfl, .inl rfl⟩

theorem parted_newline (v : Text) : Parted ('\n' :: v) := ⟨'\n', v, rfl, .inr rfl⟩

/-- What is cut off the front of a text stays the same if it ends inside the text, or where the
further text starts. -/
theorem span_behind (h : cs.dropWhile p = [] → ∀ c ∈ w.head?, p c = false) :
    (cs ++ w).takeWhile p = cs.takeWhile p ∧ (cs ++ w).dropWhile p = cs.dropWhile p ++ w := by
  induction cs with
  | nil =>
    cases w with
    | nil => exact ⟨rfl, rfl⟩
    | cons c v => simp [h rfl c rfl]
  | cons c cs ih =>
    by_cases hc : p c = true
    · rw [List.dropWhile_cons_of_pos hc] at h
      obtain ⟨taken, dropped⟩ := ih h
      simp [hc, taken, dropped]
    · simp [hc]

theorem Parted.not_head (hw : Parted w) (hp : p ' ' = false ∧ p '\n' = false) :
    ∀ c ∈ w.head?, p c = false := by
  obtain ⟨c, v, rfl, rfl | rfl⟩ := hw
  · simpa using hp.1
  · simpa using hp.2

theorem Parted.takeWhile (hw : Parted w) (hp : p ' ' = false ∧ p '\n' = false) (cs : Text) :
    (cs ++ w).takeWhile p = cs.takeWhile p :=
  (span_behind fun _ => hw.not_head hp).1

theorem Parted.dropWhile (hw : Parted w) (hp : p ' ' = false ∧ p '\n' = false) (cs : Text) :
    (cs ++ w).dropWhile p = cs.dropWhile p ++ w :=
  (span_behind fun _ => hw.not_head hp).2

/-- The next character of the text is as good as none. -/
theorem Parted.head (hw : Parted w) (hp : p ' ' = false ∧ p '\n' = false) (cs : Text) :
    (cs ++ w).head?.any p = cs.head?.any p := by
  cases cs with
  | nil =>
    obtain ⟨c, v, rfl, rfl | rfl⟩ := hw
    · simp [hp.1]
    · simp [hp.2]
  | cons c cs => rfl

theorem Parted.isPrefixOf (hw : Parted w) {op : Text} (blank : ' ' ∉ op) (newline : '\n' ∉ op)
    (cs : Text) : op.isPrefixOf (cs ++ w) = op.isPrefixOf cs := by
  induction op generalizing cs with
  | nil => simp
  | cons c op ih =>
    have inside := ih (fun h => blank (by simp [h])) (fun h => newline (by simp [h]))
    cases cs with
    | nil =>
      obtain ⟨d, v, rfl, rfl | rfl⟩ := hw
      · have other : c ≠ ' ' := fun h => blank (by simp [h])
        simp [List.isPrefixOf, other]
      · have other : c ≠ '\n' := fun h => newline (by simp [h])
        simp [List.isPrefixOf, other]
    | cons d cs => simp [List.isPrefixOf, inside cs]

theorem Parted.cutName (hw : Parted w) (cs : Text) :
    cutName (cs ++ w) = ((cutName cs).1, (cutName cs).2 ++ w) := by
  induction cs with
  | nil =>
    obtain ⟨c, v, rfl, rfl | rfl⟩ := hw
    · rfl
    · rfl
  | cons c cs ih =>
    have next : (cs ++ w).head? != some '=' ↔ cs.head? != some '=' := by
      cases cs with
      | nil => obtain ⟨c, v, rfl, rfl | rfl⟩ := hw <;> simp
      | cons d cs => rfl
    simp only [List.cons_append, Text.cutName, Bool.or_eq_true, Bool.and_eq_true, next, ih]
    split
    · rfl
    · rfl

theorem Parted.longest? (hw : Parted w) {spellings : List Text}
    (plain : ∀ op ∈ spellings, ' ' ∉ op ∧ '\n' ∉ op) (cs : Text) :
    longest? spellings (cs ++ w) = longest? spellings cs := by
  have same : spellings.filter (·.isPrefixOf (cs ++ w)) = spellings.filter (·.isPrefixOf cs) :=
    List.filter_congr fun op ho => hw.isPrefixOf (plain op ho).1 (plain op ho).2 cs
  rw [Text.longest?, Text.longest?, same]

theorem operators_plain : ∀ op ∈ operators, ' ' ∉ op ∧ '\n' ∉ op := by decide

theorem Parted.operator? (hw : Parted w) (cs : Text) : operator? (cs ++ w) = operator? cs :=
  hw.longest? operators_plain cs

theorem Parted.dottedOperator? (hw : Parted w) (c : Char) (cs : Text) :
    dottedOperator? (c :: (cs ++ w)) = dottedOperator? (c :: cs) := by
  have next : (cs ++ w).head? == some '.' ↔ cs.head? == some '.' := by
    cases cs with
    | nil => obtain ⟨c, v, rfl, rfl | rfl⟩ := hw <;> simp
    | cons d cs => rfl
  by_cases point : c = '.'
  · subst point
    simp only [Text.dottedOperator?, next, hw.operator?]
  · unfold Text.dottedOperator?
    simp [point]

section Numbers

theorem digitMark_stops : isDigitMark ' ' = false ∧ isDigitMark '\n' = false := by decide

theorem Parted.cutFraction (hw : Parted w) (cs : Text) :
    cutFraction (cs ++ w) = ((cutFraction cs).1, (cutFraction cs).2 ++ w) := by
  unfold Text.cutFraction
  rcases cs with _ | ⟨c, _ | ⟨d, cs⟩⟩
  · obtain ⟨c, v, rfl, rfl | rfl⟩ := hw
    · rfl
    · rfl
  · by_cases point : c = '.'
    · subst point
      obtain ⟨d, v, rfl, rfl | rfl⟩ := hw
      · rfl
      · rfl
    · simp [point]
  · by_cases point : c = '.'
    · subst point
      simp only [List.cons_append, hw.takeWhile digitMark_stops, hw.dropWhile digitMark_stops]
      split
      · rfl
      · rfl
    · simp [point]

theorem Parted.cutExponent (hw : Parted w) (cs : Text) :
    cutExponent (cs ++ w) = ((cutExponent cs).1, (cutExponent cs).2 ++ w) := by
  rcases cs with _ | ⟨e, cs⟩
  · obtain ⟨c, v, rfl, rfl | rfl⟩ := hw
    · rfl
    · rfl
  by_cases mark : (e == 'e' || e == 'E' || e == 'f') = true
  · rcases cs with _ | ⟨s, _ | ⟨d, rest⟩⟩
    · obtain ⟨c, _ | ⟨d, v⟩, rfl, rfl | rfl⟩ := hw <;> simp [Text.cutExponent, mark]
    · obtain ⟨c, v, rfl, rfl | rfl⟩ := hw
      · by_cases digit : s.isDigit = true
        · simp [Text.cutExponent, mark, digit, digitMark_stops]
        · simp [Text.cutExponent, mark, digit]
      · by_cases digit : s.isDigit = true
        · simp [Text.cutExponent, mark, digit, digitMark_stops]
        · simp [Text.cutExponent, mark, digit]
    · have taken := hw.takeWhile digitMark_stops
      have dropped := hw.dropWhile digitMark_stops
      simp only [List.cons_append, Text.cutExponent, mark, if_true, taken, dropped]
      rw [← List.cons_append, taken, dropped]
      split
      · rfl
      · split
        · rfl
        · rfl
  · simp [Text.cutExponent, mark]

theorem Parted.cutRadix? (hw : Parted w) (cs : Text) :
    cutRadix? (cs ++ w) = (cutRadix? cs).map fun (digits, rest) => (digits, rest ++ w) := by
  have hexMark_stops : (isHexDigit ' ' || ' ' == '_') = false ∧
      (isHexDigit '\n' || '\n' == '_') = false := by decide
  rcases cs with _ | ⟨b, _ | ⟨d, cs⟩⟩
  · obtain ⟨c, _ | ⟨d, v⟩, rfl, rfl | rfl⟩ := hw <;> rfl
  · obtain ⟨c, v, rfl, rfl | rfl⟩ := hw
    · simp [Text.cutRadix?, show isHexDigit ' ' = false by decide]
    · simp [Text.cutRadix?, show isHexDigit '\n' = false by decide]
  · have taken := hw.takeWhile (p := fun c => isHexDigit c || c == '_') hexMark_stops cs
    have dropped := hw.dropWhile (p := fun c => isHexDigit c || c == '_') hexMark_stops cs
    simp only [List.cons_append, Text.cutRadix?, taken, dropped]
    split
    · rfl
    · rfl

theorem Parted.cutNumber (hw : Parted w) (first : Char) (cs : Text) :
    cutNumber first (cs ++ w) =
      ((cutNumber first cs).1, (cutNumber first cs).2.1, (cutNumber first cs).2.2 ++ w) := by
  have radix : (if first == '0' then Text.cutRadix? (cs ++ w) else none) =
      (if first == '0' then Text.cutRadix? cs else none).map
        fun (digits, rest) => (digits, rest ++ w) := by
    split
    · exact hw.cutRadix? cs
    · rfl
  unfold Text.cutNumber
  rw [radix]
  cases (if first == '0' then Text.cutRadix? cs else none) with
  | some cut => rfl
  | none =>
    simp only [Option.map_none, hw.takeWhile digitMark_stops, hw.dropWhile digitMark_stops]
    by_cases point : (first == '.') = true
    · simp [point, hw.cutExponent]
    · simp [point, hw.cutFraction, hw.cutExponent]

end Numbers

end Text

/-- The characters of a delimiter stand for nothing else. -/
theorem Delimiter.plain (delimiter : Delimiter) :
    ' ' ∉ delimiter.text ∧ '\n' ∉ delimiter.text ∧
      (∀ cs, delimiter.text.isPrefixOf ('\\' :: cs) = false) ∧
      ∀ cs, delimiter.text.isPrefixOf ('$' :: cs) = false := by
  cases delimiter <;> simp [Delimiter.text, List.isPrefixOf]

theorem Text.Parted.ofQuotes {w : Text} (hw : Text.Parted w) (cs : Text) :
    Delimiter.ofQuotes (cs ++ w) = Delimiter.ofQuotes cs := by
  have plain := Delimiter.tripleQuote.plain
  rw [Delimiter.ofQuotes, Delimiter.ofQuotes, hw.isPrefixOf plain.1 plain.2.1]

theorem Text.Parted.ofBackticks {w : Text} (hw : Text.Parted w) (cs : Text) :
    Delimiter.ofBackticks (cs ++ w) = Delimiter.ofBackticks cs := by
  have plain := Delimiter.tripleBacktick.plain
  rw [Delimiter.ofBackticks, Delimiter.ofBackticks, hw.isPrefixOf plain.1 plain.2.1]

namespace Text

section Closed

variable {w : Text}

/-- A comment that has its end looks at nothing behind it. -/
theorem cutComment_behind {depth : Nat} {text front back : Text}
    (h : cutComment depth text = some (front, back)) (w : Text) :
    cutComment depth (text ++ w) = some (front, back ++ w) := by
  induction depth, text using cutComment.induct generalizing front back with
  | case1 => simp [cutComment] at h
  | case2 depth cs ih =>
    simp only [cutComment, Option.map_eq_some_iff, Prod.exists, Prod.mk.injEq] at h
    obtain ⟨f, b, hs, rfl, rfl⟩ := h
    simp [cutComment, ih hs]
  | case3 cs =>
    simp only [cutComment, Option.some.injEq, Prod.mk.injEq] at h
    simp [cutComment, ← h.1, ← h.2]
  | case4 depth cs ih =>
    simp only [cutComment, Option.map_eq_some_iff, Prod.exists, Prod.mk.injEq] at h
    obtain ⟨f, b, hs, rfl, rfl⟩ := h
    simp [cutComment, ih hs]
  | case5 depth c cs h1 h2 h3 ih =>
    rw [cutComment] at h
    · obtain ⟨⟨f, b⟩, hs, same⟩ := Option.map_eq_some_iff.mp h
      cases same
      -- the comment goes on, so that the marks are looked for inside the text
      cases cs with
      | nil => simp [cutComment] at hs
      | cons d cs =>
        rw [List.cons_append, List.cons_append, cutComment, ← List.cons_append, ih hs]
        · rfl
        · exact fun tail hc he => h1 cs hc (by rw [(List.cons.inj he).1])
        · exact fun tail hd hc he => h2 cs hd hc (by rw [(List.cons.inj he).1])
        · exact fun n tail hd hc he => h3 n cs hd hc (by rw [(List.cons.inj he).1])
    all_goals assumption

theorem cutToQuote_behind {text front back : Text} (h : cutToQuote text = some (front, back))
    (w : Text) : cutToQuote (text ++ w) = some (front, back ++ w) := by
  induction text generalizing front back with
  | nil => simp [cutToQuote] at h
  | cons c cs ih =>
    simp only [List.cons_append, cutToQuote] at h ⊢
    split at h
    · cases h
    · next here =>
      rw [if_neg here]
      split at h
      · next closing =>
        cases h
        rw [if_pos closing]
      · next other =>
        obtain ⟨⟨f, b⟩, hs, same⟩ := Option.map_eq_some_iff.mp h
        cases same
        rw [if_neg other, ih hs]
        rfl

theorem cutChar_behind {text front back : Text} (h : cutChar text = some (front, back))
    (w : Text) : cutChar (text ++ w) = some (front, back ++ w) := by
  rcases text with _ | ⟨c, _ | ⟨d, cs⟩⟩
  · cases h
  · simp [cutChar, cutToQuote] at h
  by_cases escape : c = '\\'
  · subst escape
    simp only [List.cons_append, cutChar] at h ⊢
    split at h
    · cases h
    · next inside =>
      obtain ⟨⟨f, b⟩, hs, same⟩ := Option.map_eq_some_iff.mp h
      cases same
      rw [if_neg inside, cutToQuote_behind hs]
      rfl
  · have plain (cs : Text) : cutChar (c :: cs) =
        if c = '\n' then none else (cutToQuote cs).map fun (front, back) => (c :: front, back) := by
      rw [cutChar]
      · simp [escape]
      · exact fun _ _ hc => absurd hc escape
    rw [plain] at h
    rw [List.cons_append, plain]
    split at h
    · cases h
    · next inside =>
      obtain ⟨⟨f, b⟩, hs, same⟩ := Option.map_eq_some_iff.mp h
      cases same
      rw [if_neg inside, cutToQuote_behind hs]
      rfl

/-- The closing delimiter is plain, so what follows the string is not looked at. -/
theorem Parted.cutOpaque (hw : Parted w) {close : Text} (plain : ' ' ∉ close ∧ '\n' ∉ close)
    {text front back : Text} (h : cutOpaque close text = some (front, back)) :
    cutOpaque close (text ++ w) = some (front, back ++ w) := by
  induction text using cutOpaque.induct close generalizing front back with
  | case1 c cs ih =>
    simp only [Text.cutOpaque, Option.map_eq_some_iff, Prod.exists, Prod.mk.injEq] at h
    obtain ⟨f, b, hs, rfl, rfl⟩ := h
    simp [Text.cutOpaque, ih hs]
  | case2 c cs other stop =>
    rw [Text.cutOpaque] at h
    · simp [stop] at h
    · assumption
  | case3 c cs other go found =>
    have longer := hw.isPrefixOf plain.1 plain.2 (c :: cs)
    rw [Text.cutOpaque] at h
    · simp only [go, found, Bool.false_eq_true, if_false, if_true, Option.some.injEq,
        Prod.mk.injEq] at h
      obtain ⟨rfl, rfl⟩ := h
      rw [List.cons_append, Text.cutOpaque]
      · rw [← List.cons_append, longer]
        simp [go, found]
      · intro d tail hc
        simp [hc] at go
    · assumption
  | case4 c cs other go found ih =>
    have longer := hw.isPrefixOf plain.1 plain.2 (c :: cs)
    rw [Text.cutOpaque] at h
    · simp only [go, found, Bool.false_eq_true, if_false] at h
      obtain ⟨⟨f, b⟩, hs, same⟩ := Option.map_eq_some_iff.mp h
      cases same
      rw [List.cons_append, Text.cutOpaque]
      · rw [← List.cons_append, longer, ih hs]
        simp [go, found]
      · intro d tail hc
        simp [hc] at go
    · assumption
  | case5 => simp [Text.cutOpaque] at h

/-- A chunk that ends inside the text ends there whatever follows. -/
theorem Parted.cutChunk (hw : Parted w) (delimiter : Delimiter) {text : Text}
    (ends : (cutChunk delimiter.text text).2 ≠ []) :
    cutChunk delimiter.text (text ++ w) =
      ((cutChunk delimiter.text text).1, (cutChunk delimiter.text text).2 ++ w) := by
  have plain := delimiter.plain
  induction text using cutChunk.induct delimiter.text with
  | case1 c cs _ _ _ ih =>
    simp only [Text.cutChunk] at ends
    simp [Text.cutChunk, ih ends]
  | case2 c cs other stop =>
    have longer := hw.isPrefixOf plain.1 plain.2.1 (c :: cs)
    have escape : c ≠ '\\' := by
      rintro rfl
      simp [plain.2.2.1] at stop
    have cut (cs : Text) (stop : (c == '$' || delimiter.text.isPrefixOf (c :: cs)) = true) :
        Text.cutChunk delimiter.text (c :: cs) = ([], c :: cs) := by
      rw [Text.cutChunk]
      · rw [if_pos stop]
      · exact fun _ _ hc => absurd hc escape
    rw [cut cs stop, List.cons_append, cut]
    rw [← List.cons_append, longer]
    exact stop
  | case3 c cs other go _ _ _ ih =>
    have longer := hw.isPrefixOf plain.1 plain.2.1 (c :: cs)
    have cut (cs : Text) (other : ∀ d tail, c = '\\' → cs = d :: tail → False)
        (go : ¬ (c == '$' || delimiter.text.isPrefixOf (c :: cs)) = true) :
        Text.cutChunk delimiter.text (c :: cs) =
          (c :: (Text.cutChunk delimiter.text cs).1, (Text.cutChunk delimiter.text cs).2) := by
      rw [Text.cutChunk]
      · rw [if_neg go]
      · exact other
    rw [cut cs other go] at ends ⊢
    rw [List.cons_append, cut, ih ends]
    · intro d tail hc he
      cases cs with
      | nil => exact ends rfl
      | cons e cs => exact other e cs hc rfl
    · rw [← List.cons_append, longer]
      exact go
  | case4 => exact absurd rfl ends

end Closed

/-- A blank behind the text is not seen from before it: a line break or something else stands in
between. -/
def Shielded (rest w : Text) : Prop := (∃ v, w = '\n' :: v) ∨ ∃ c ∈ rest, isBlank c = false

theorem Parted.followedBy (hw : Parted w) {rest word : Text} (shielded : Shielded rest w)
    (plain : ' ' ∉ word ∧ '\n' ∉ word) : followedBy word (rest ++ w) = followedBy word rest := by
  have dropped : (rest ++ w).dropWhile (fun c => c == ' ' || c == '\t') =
      rest.dropWhile (fun c => c == ' ' || c == '\t') ++ w := by
    refine (span_behind fun none => ?_).2
    rcases shielded with ⟨v, rfl⟩ | ⟨c, mem, solid⟩
    · simp
    · have blank := List.dropWhile_eq_nil_iff.mp none c mem
      simp only [Bool.or_eq_true, beq_iff_eq] at blank
      rcases blank with rfl | rfl
      · cases solid
      · cases solid
  have names : isNameChar ' ' = false ∧ isNameChar '\n' = false := by decide
  simp only [Text.followedBy, dropped, hw.isPrefixOf plain.1 plain.2, List.length_append,
    Nat.add_lt_add_iff_right]
  by_cases found : word.isPrefixOf (rest.dropWhile fun c => c == ' ' || c == '\t') = true
  · obtain ⟨tail, split⟩ := List.isPrefixOf_iff_prefix.mp found
    rw [← split, List.append_assoc, List.drop_left, List.drop_left, hw.head names]
  · simp [found]

end Text

end CellBindings
