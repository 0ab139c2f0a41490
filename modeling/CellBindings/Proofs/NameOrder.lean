import CellBindings.Text.Order

/-!
The order of names is the order of their UTF-8 bytes: a greater character has more bytes, with a
greater first one, or as many, which hold its digits in order. So items sorted by name are sorted by
the bytes of their names, and strictly if the names are different.
-/

namespace CellBindings.Text

def bytes (text : Text) : List UInt8 := text.flatMap String.utf8EncodeChar

/-- The lesser of two characters has the lesser bytes, whatever follows. -/
theorem encode_lt {c d : Char} (less : c < d) (front back : List UInt8) :
    String.utf8EncodeChar c ++ front < String.utf8EncodeChar d ++ back := by
  have values : c.val.toNat < d.val.toNat := UInt32.lt_iff_toNat_lt.mp less
  have bound : d.val.toNat < 0x110000 := by
    rcases d.valid with low | high
    · exact Nat.lt_trans low (by decide)
    · exact high.2
  have second (n : Nat) : n / 4096 = n / 64 / 64 := (Nat.div_div_eq_div_mul n 64 64).symm
  have third (n : Nat) : n / 262144 = n / 64 / 64 / 64 := by
    rw [Nat.div_div_eq_div_mul, Nat.div_div_eq_div_mul]
  simp only [String.utf8EncodeChar, second, third]
  generalize c.val.toNat = v at *
  generalize d.val.toNat = w at *
  -- each case has two numbers of bytes, and the digits decide only where these are the same
  repeat' split
  all_goals
    simp only [List.cons_append, List.nil_append, List.cons_lt_cons_iff, UInt8.lt_iff_toNat_lt,
      ← UInt8.toNat_inj, UInt8.toNat_ofNat']
    omega

theorem bytes_cons (c : Char) (cs : Text) : bytes (c :: cs) = String.utf8EncodeChar c ++ bytes cs :=
  List.flatMap_cons

theorem precedes_cons (c d : Char) (cs ds : Text) :
    precedes (c :: cs) (d :: ds) = true ↔ c < d ∨ c = d ∧ precedes cs ds = true := by
  simp [precedes]

theorem bytes_lt_of_precedes {a b : Text} (h : precedes a b = true) : a.bytes < b.bytes := by
  induction a generalizing b with
  | nil =>
    cases b with
    | nil => cases h
    | cons d ds =>
      obtain ⟨byte, rest, encoded⟩ := List.exists_cons_of_ne_nil (@String.utf8EncodeChar_ne_nil d)
      rw [bytes_cons, encoded]
      exact List.nil_lt_cons _ _
  | cons c cs ih =>
    cases b with
    | nil => cases h
    | cons d ds =>
      rw [bytes_cons, bytes_cons]
      rcases (precedes_cons c d cs ds).mp h with less | ⟨rfl, later⟩
      · exact encode_lt less _ _
      · exact List.append_left_lt (ih later)

theorem precedes_trichotomy (a b : Text) :
    precedes a b = true ∨ a = b ∨ precedes b a = true := by
  induction a generalizing b with
  | nil =>
    cases b with
    | nil => exact .inr (.inl rfl)
    | cons => exact .inl rfl
  | cons c cs ih =>
    cases b with
    | nil => exact .inr (.inr rfl)
    | cons d ds =>
      rw [precedes_cons, precedes_cons]
      rcases Nat.lt_trichotomy c.toNat d.toNat with less | same | greater
      · exact .inl (.inl (UInt32.lt_iff_toNat_lt.mpr less))
      · obtain rfl := Char.toNat_inj.mp same
        rcases ih ds with before | rfl | behind
        · exact .inl (.inr ⟨rfl, before⟩)
        · exact .inr (.inl rfl)
        · exact .inr (.inr (.inr ⟨rfl, behind⟩))
      · exact .inr (.inr (.inl (UInt32.lt_iff_toNat_lt.mpr greater)))

/-- Names are in the order of their bytes. -/
theorem precedes_iff {a b : Text} : precedes a b = true ↔ a.bytes < b.bytes := by
  constructor
  · exact bytes_lt_of_precedes
  · intro less
    rcases precedes_trichotomy a b with before | rfl | behind
    · exact before
    · exact absurd less (List.lt_irrefl _)
    · exact absurd (List.lt_trans less (bytes_lt_of_precedes behind)) (List.lt_irrefl _)

section Sorting

variable {α β : Type} {item : Text × α} {items : List (Text × α)}

theorem perm_insertByName (item : Text × α) (items : List (Text × α)) :
    (insertByName item items).Perm (item :: items) := by
  induction items with
  | nil => exact .refl _
  | cons other rest ih =>
    rw [insertByName]
    split
    · exact (ih.cons other).trans (.swap item other rest)
    · exact .refl _

/-- Sorting by name keeps every item. -/
theorem perm_sortByName (items : List (Text × α)) : (sortByName items).Perm items := by
  induction items with
  | nil => exact .refl _
  | cons item rest ih => exact (perm_insertByName item _).trans (ih.cons item)

/-- One step of sorting: an item with a new name is put in its place. -/
theorem insertByName_ordered (new : ∀ other ∈ items, other.1 ≠ item.1)
    (ordered : items.Pairwise fun a b => a.1.bytes < b.1.bytes) :
    (insertByName item items).Pairwise fun a b => a.1.bytes < b.1.bytes := by
  induction items with
  | nil => exact List.pairwise_singleton _ _
  | cons other rest ih =>
    obtain ⟨first, later⟩ := List.pairwise_cons.mp ordered
    rw [insertByName]
    split
    · next before =>
      refine List.pairwise_cons.mpr ⟨?_, ih (fun x hx => new x (List.mem_cons_of_mem _ hx)) later⟩
      intro x mem
      rcases List.mem_cons.mp ((perm_insertByName item rest).mem_iff.mp mem) with rfl | mem
      · exact precedes_iff.mp before
      · exact first x mem
    · next notBefore =>
      have before : item.1.bytes < other.1.bytes := by
        rcases precedes_trichotomy other.1 item.1 with less | same | greater
        · exact absurd less notBefore
        · exact absurd same (new other List.mem_cons_self)
        · exact precedes_iff.mp greater
      refine List.pairwise_cons.mpr ⟨?_, ordered⟩
      intro x mem
      rcases List.mem_cons.mp mem with rfl | mem
      · exact before
      · exact List.lt_trans before (first x mem)

/-- Items with different names are sorted by the bytes of their names. -/
theorem sortByName_ordered (distinct : (items.map (·.1)).Nodup) :
    (sortByName items).Pairwise fun a b => a.1.bytes < b.1.bytes := by
  induction items with
  | nil => exact .nil
  | cons item rest ih =>
    obtain ⟨new, distinct⟩ := List.nodup_cons.mp distinct
    refine insertByName_ordered ?_ (ih distinct)
    intro other mem same
    exact new (List.mem_map.mpr ⟨other, (perm_sortByName rest).mem_iff.mp mem, same⟩)

theorem insertByName_map {f : Text × α → Text × β} (names : ∀ item, (f item).1 = item.1)
    (item : Text × α) (items : List (Text × α)) :
    insertByName (f item) (items.map f) = (insertByName item items).map f := by
  induction items with
  | nil => rfl
  | cons other rest ih =>
    simp only [List.map_cons, insertByName, names, ih]
    split <;> rfl

/-- What items hold besides their names plays no part. -/
theorem sortByName_map {f : Text × α → Text × β} (names : ∀ item, (f item).1 = item.1)
    (items : List (Text × α)) : sortByName (items.map f) = (sortByName items).map f := by
  induction items with
  | nil => rfl
  | cons item rest ih =>
    change insertByName (f item) (sortByName (rest.map f)) = _
    rw [ih]
    exact insertByName_map names item _

end Sorting

end CellBindings.Text
