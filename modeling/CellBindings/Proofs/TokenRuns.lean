import CellBindings.Grammar.Shape

/-!
Runs of tokens. Tokens in order are not empty and do not overlap, so a run of them has an extent,
from where its first token starts to where its last one stops, and cutting the run cuts the extent.
-/

namespace CellBindings

attribute [ext] Span

/-- No token is empty, and each stops before the next one starts. -/
structure Ordered (ts : List Token) : Prop where
  nonempty : ∀ t ∈ ts, t.span.start < t.span.stop
  apart : ts.Pairwise fun a b => a.span.stop ≤ b.span.start

def extent (ts : List Token) : Span :=
  ⟨(ts.head?.map (·.span.start)).getD 0, (ts.getLast?.map (·.span.stop)).getD 0⟩

def stopAfter (place : Nat) (ts : List Token) : Nat := (ts.getLast?.map (·.span.stop)).getD place

theorem ordered_append {us vs : List Token} :
    Ordered (us ++ vs) ↔
      Ordered us ∧ Ordered vs ∧ ∀ a ∈ us, ∀ b ∈ vs, a.span.stop ≤ b.span.start := by
  constructor
  · intro h
    obtain ⟨hu, hv, hx⟩ := List.pairwise_append.mp h.apart
    exact ⟨⟨fun t ht => h.nonempty t (List.mem_append_left _ ht), hu⟩,
      ⟨fun t ht => h.nonempty t (List.mem_append_right _ ht), hv⟩, hx⟩
  · rintro ⟨hu, hv, hx⟩
    refine ⟨fun t ht => ?_, List.pairwise_append.mpr ⟨hu.apart, hv.apart, hx⟩⟩
    rcases List.mem_append.mp ht with ht | ht
    · exact hu.nonempty t ht
    · exact hv.nonempty t ht

theorem Ordered.left {us vs : List Token} (h : Ordered (us ++ vs)) : Ordered us :=
  (ordered_append.mp h).1

theorem Ordered.right {us vs : List Token} (h : Ordered (us ++ vs)) : Ordered vs :=
  (ordered_append.mp h).2.1

theorem Ordered.tail {t : Token} {ts : List Token} (h : Ordered (t :: ts)) : Ordered ts :=
  @Ordered.right [t] ts h

theorem Ordered.head_before {t : Token} {ts : List Token} (h : Ordered (t :: ts)) :
    ∀ u ∈ ts, t.span.stop ≤ u.span.start :=
  (List.pairwise_cons.mp h.apart).1

theorem Ordered.across {us vs : List Token} (h : Ordered (us ++ vs)) {a b : Token}
    (ha : a ∈ us) (hb : b ∈ vs) : a.span.stop ≤ b.span.start :=
  (ordered_append.mp h).2.2 a ha b hb

@[simp] theorem extent_singleton (t : Token) : extent [t] = t.span := rfl

@[simp] theorem stopAfter_nil (place : Nat) : stopAfter place [] = place := rfl

theorem stopAfter_append (place : Nat) (us vs : List Token) :
    stopAfter place (us ++ vs) = stopAfter (stopAfter place us) vs := by
  cases h : vs.getLast? with
  | none =>
    rw [List.getLast?_eq_none_iff] at h
    simp [h]
  | some t => simp [stopAfter, List.getLast?_append, h]

@[simp] theorem stopAfter_cons (place : Nat) (t : Token) (ts : List Token) :
    stopAfter place (t :: ts) = stopAfter t.span.stop ts :=
  stopAfter_append place [t] ts

theorem stopAfter_of_ne_nil {ts : List Token} (place : Nat) (h : ts ≠ []) :
    stopAfter place ts = (extent ts).stop := by
  simp [stopAfter, extent, List.getLast?_eq_some_getLast h]

@[simp] theorem extent_cons_start (t : Token) (ts : List Token) :
    (extent (t :: ts)).start = t.span.start := rfl

theorem extent_append_start {us : List Token} (vs : List Token) (h : us ≠ []) :
    (extent (us ++ vs)).start = (extent us).start := by
  cases us with
  | nil => exact absurd rfl h
  | cons t us => rfl

theorem extent_append_stop (us : List Token) {vs : List Token} (h : vs ≠ []) :
    (extent (us ++ vs)).stop = (extent vs).stop := by
  have hs : us ++ vs ≠ [] := by simp [h]
  rw [← stopAfter_of_ne_nil 0 hs, stopAfter_append, stopAfter_of_ne_nil _ h]

/-- A run between two tokens that enclose it. -/
theorem extent_enclosed (first last : Token) (ts : List Token) :
    extent (first :: (ts ++ [last])) = Grammar.between first last := by
  ext
  · rfl
  · exact extent_append_stop (first :: ts) (List.cons_ne_nil last [])

theorem extent_covers {ts : List Token} (h : Ordered ts) {t : Token} (ht : t ∈ ts) :
    (extent ts).start ≤ t.span.start ∧ t.span.stop ≤ (extent ts).stop := by
  obtain ⟨us, vs, rfl⟩ := List.append_of_mem ht
  constructor
  · cases us with
    | nil => exact Nat.le_refl _
    | cons u us =>
      have hu := h.nonempty u (by simp)
      have hx := h.across (a := u) (b := t) (by simp) (by simp)
      simp only [List.cons_append, extent_cons_start]
      omega
  · rw [extent_append_stop us (List.cons_ne_nil t vs)]
    cases hv : vs.getLast? with
    | none =>
      rw [List.getLast?_eq_none_iff] at hv
      simp [hv]
    | some v =>
      have hm := List.mem_of_getLast? hv
      have hn : vs ≠ [] := List.ne_nil_of_mem hm
      have hx := h.right.head_before v hm
      have hl := h.nonempty v (by simp [hm])
      rw [← List.singleton_append, extent_append_stop [t] hn]
      simp only [extent, hv, Option.map_some, Option.getD_some]
      omega

theorem extent_nonempty {ts : List Token} (h : Ordered ts) (hn : ts ≠ []) :
    (extent ts).start < (extent ts).stop := by
  obtain ⟨t, ht⟩ := List.exists_mem_of_ne_nil ts hn
  have := extent_covers h ht
  have := h.nonempty t ht
  omega

/-- Two runs in order have extents in order. -/
theorem extent_apart {us vs : List Token} (h : ∀ a ∈ us, ∀ b ∈ vs, a.span.stop ≤ b.span.start)
    (hu : us ≠ []) (hv : vs ≠ []) : (extent us).stop ≤ (extent vs).start := by
  have hl := h _ (List.getLast_mem hu) _ (List.head_mem hv)
  simpa [extent, List.getLast?_eq_some_getLast hu, List.head?_eq_some_head hv] using hl

/-- Two runs and what stands between them. -/
theorem extent_cover {us gap vs : List Token} (h : Ordered (us ++ (gap ++ vs)))
    (hu : us ≠ []) (hv : vs ≠ []) :
    (extent us).cover (extent vs) = extent (us ++ (gap ++ vs)) := by
  have ha := extent_apart (fun a ha b hb => h.across ha (List.mem_append_right gap hb)) hu hv
  have hl := extent_nonempty h.left hu
  have hr := extent_nonempty h.right.right hv
  have hgv : gap ++ vs ≠ [] := by simp [hv]
  ext
  · rw [extent_append_start _ hu]
    simp only [Span.cover]
    omega
  · rw [extent_append_stop _ hgv, extent_append_stop _ hv]
    simp only [Span.cover]
    omega

end CellBindings
