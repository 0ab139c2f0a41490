import CellBindings.Text.Span

/-!
Texts as lists of characters with byte offsets. Every offset of the library counts UTF-8 bytes, so
a text is cut at a byte only where a character starts. Splitting is the one primitive: slicing,
boundaries and clamping are stated through it.
-/

namespace CellBindings

abbrev Text := List Char

namespace Text

def byteSize : Text → Nat
  | [] => 0
  | c :: cs => c.utf8Size + byteSize cs

/-- The parts before and after byte `n`, unless `n` is past the end or inside a character. -/
def splitAt? : Text → Nat → Option (Text × Text)
  | cs, 0 => some ([], cs)
  | [], _ + 1 => none
  | c :: cs, n + 1 =>
    if n + 1 < c.utf8Size then none
    else (splitAt? cs (n + 1 - c.utf8Size)).map fun (front, back) => (c :: front, back)

def IsBoundary (text : Text) (n : Nat) : Prop := (splitAt? text n).isSome

instance (text : Text) (n : Nat) : Decidable (IsBoundary text n) :=
  inferInstanceAs (Decidable (_ = true))

/-- The piece that a span names, if both ends are boundaries in order. -/
def slice? (text : Text) (span : Span) : Option Text :=
  if span.stop < span.start then none
  else
    match splitAt? text span.start with
    | none => none
    | some (_, back) => (splitAt? back (span.stop - span.start)).map (·.1)

/-- The largest boundary that is not after byte `n`. -/
def boundaryBefore : Text → Nat → Nat
  | [], _ => 0
  | c :: cs, n =>
    if n < c.utf8Size then 0 else c.utf8Size + boundaryBefore cs (n - c.utf8Size)

/-- What follows a lead, if the text starts with it. -/
def dropPrefix? : Text → Text → Option Text
  | text, [] => some text
  | [], _ :: _ => none
  | c :: cs, d :: lead => if c = d then dropPrefix? cs lead else none

/-- What precedes a tail, if the text ends with it. -/
def dropSuffix? (text tail : Text) : Option Text :=
  (dropPrefix? text.reverse tail.reverse).map List.reverse

@[simp] theorem byteSize_nil : byteSize [] = 0 := rfl

@[simp] theorem byteSize_cons (c : Char) (cs : Text) :
    byteSize (c :: cs) = c.utf8Size + byteSize cs := rfl

@[simp] theorem byteSize_append (a b : Text) : byteSize (a ++ b) = byteSize a + byteSize b := by
  induction a with
  | nil => simp
  | cons c cs ih => simp [ih, Nat.add_assoc]

theorem length_le_byteSize (text : Text) : text.length ≤ text.byteSize := by
  induction text with
  | nil => exact Nat.le_refl 0
  | cons c cs ih =>
    have := c.utf8Size_pos
    rw [List.length_cons, byteSize_cons]
    omega

@[simp] theorem splitAt?_zero (text : Text) : splitAt? text 0 = some ([], text) := by
  cases text <;> rfl

/-- A text splits where its front part ends. -/
theorem splitAt?_append (front back : Text) :
    splitAt? (front ++ back) (byteSize front) = some (front, back) := by
  induction front with
  | nil => simp
  | cons c cs ih =>
    obtain ⟨k, hk⟩ : ∃ k, c.utf8Size + byteSize cs = k + 1 :=
      ⟨c.utf8Size + byteSize cs - 1, by have := c.utf8Size_pos; omega⟩
    have split : k + 1 - c.utf8Size = byteSize cs := by omega
    have fits : ¬ k + 1 < c.utf8Size := by omega
    simp only [List.cons_append, byteSize_cons, hk, splitAt?, split, ih, if_neg fits, Option.map_some]

/-- A split loses nothing and cuts exactly at the byte asked for. -/
theorem eq_of_splitAt? {text front back : Text} {n : Nat}
    (h : splitAt? text n = some (front, back)) : text = front ++ back ∧ byteSize front = n := by
  induction text, n using splitAt?.induct generalizing front back with
  | case1 cs =>
    simp at h
    simp [h]
  | case2 => simp [splitAt?] at h
  | case3 c cs n small => simp [splitAt?, small] at h
  | case4 c cs n small ih =>
    simp only [splitAt?, if_neg small, Option.map_eq_some_iff, Prod.mk.injEq, Prod.exists] at h
    obtain ⟨f, b, hs, rfl, rfl⟩ := h
    obtain ⟨rfl, size⟩ := ih hs
    refine ⟨rfl, ?_⟩
    simp only [byteSize_cons, size]
    omega

theorem isBoundary_iff {text : Text} {n : Nat} : text.IsBoundary n ↔
    ∃ front back, text = front ++ back ∧ front.byteSize = n := by
  constructor
  · intro cut
    obtain ⟨⟨front, back⟩, split⟩ := Option.isSome_iff_exists.mp cut
    exact ⟨front, back, eq_of_splitAt? split⟩
  · rintro ⟨front, back, rfl, rfl⟩
    rw [IsBoundary, splitAt?_append]
    rfl

theorem IsBoundary.le_byteSize {text : Text} {n : Nat} (h : text.IsBoundary n) :
    n ≤ text.byteSize := by
  obtain ⟨front, back, rfl, rfl⟩ := isBoundary_iff.mp h
  rw [byteSize_append]
  omega

end Text

end CellBindings
