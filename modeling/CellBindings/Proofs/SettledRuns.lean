import Mathlib.Data.List.Infix
import CellBindings.Proofs.NestedStrings
import CellBindings.Proofs.TreeSpans

/-!
Runs of tokens that leave what is open as it was. A run settles if everything opened in it is closed
in it, up to blocks that the bracket around it closes. Two words of a tree can fail to do what the
tree says: the word of a symbol may open a block, which does no harm inside a bracket, and an `if` or
`for` that stands behind a value inside brackets opens none. In a tree without such words, a bracket,
a block word or a string with a settled run and its closing token behind it is settled; a bracket
closes with it the blocks that symbols and the words of a comprehension have opened inside.
-/

namespace CellBindings

namespace Enclosure

def inBracket : List Enclosure → Bool
  | [] | .string _ :: _ => false
  | .block :: outer => inBracket outer
  | _ :: _ => true

/-- What was open is open, and inside a bracket there may be further blocks. -/
def Drifts (before now : List Enclosure) : Prop :=
  ∃ k, now = List.replicate k .block ++ before ∧ (k ≠ 0 → inBracket before = true)

theorem inBracket_blocks (k : Nat) (opened : List Enclosure) :
    inBracket (List.replicate k .block ++ opened) = inBracket opened := by
  induction k with
  | zero => rfl
  | succ k ih => exact ih

namespace Drifts

theorem refl (opened : List Enclosure) : Drifts opened opened := ⟨0, rfl, fun h => absurd rfl h⟩

theorem trans {before now later : List Enclosure} (h : Drifts before now) (k : Drifts now later) :
    Drifts before later := by
  obtain ⟨first, rfl, early⟩ := h
  obtain ⟨second, rfl, late⟩ := k
  rw [inBracket_blocks] at late
  refine ⟨second + first, ?_, ?_⟩
  · rw [← List.append_assoc, List.replicate_append_replicate]
  · intro some
    rcases Nat.eq_zero_or_pos second with none | more
    · exact early (by omega)
    · exact late (by omega)

/-- Outside brackets nothing drifts. -/
theorem exact {before now : List Enclosure} (h : Drifts before now)
    (outside : inBracket before = false) : now = before := by
  obtain ⟨k, rfl, inside⟩ := h
  cases k with
  | zero => rfl
  | succ k =>
    rw [inside (Nat.succ_ne_zero k)] at outside
    cases outside

end Drifts

end Enclosure

open Enclosure (Drifts inBracket)

structure Node.Heard (latest : List Token) (node : Node) : Prop where
  /-- The word of a symbol opens and closes nothing, or it opens a block inside a bracket. -/
  symbol : node.kind = .symbol → ∀ t earlier, t :: earlier <:+ latest →
    t.span.stop = node.span.stop → enclosures (t :: earlier) = enclosures earlier ∨
      enclosures (t :: earlier) = .block :: enclosures earlier ∧
        inBracket (enclosures earlier) = true
  /-- The word that starts a conditional or loop opens a block. -/
  word : node.kind = .ifStatement ∨ node.kind = .forStatement → ∀ t earlier,
    t :: earlier <:+ latest → t.span.start = node.span.start →
    enclosures (t :: earlier) = .block :: enclosures earlier

/-- Whether a node is heard can be seen at the tokens one by one. -/
theorem Node.heard_iff {latest : List Token} {node : Node} :
    node.Heard latest ↔ ∀ ts ∈ latest.tails, ∀ t ∈ ts.head?,
      (node.kind = .symbol → t.span.stop = node.span.stop → enclosures ts = enclosures ts.tail ∨
        enclosures ts = .block :: enclosures ts.tail ∧ inBracket (enclosures ts.tail) = true) ∧
      (node.kind = .ifStatement ∨ node.kind = .forStatement → t.span.start = node.span.start →
        enclosures ts = .block :: enclosures ts.tail) := by
  constructor
  · intro heard ts member t first
    obtain ⟨earlier, rfl⟩ := List.head?_eq_some_iff.mp first
    have behind := (List.mem_tails _ _).mp member
    exact ⟨fun kind => heard.symbol kind t earlier behind,
      fun kind => heard.word kind t earlier behind⟩
  · intro each
    refine ⟨fun kind t earlier behind => ?_, fun kind t earlier behind => ?_⟩
    · exact (each _ ((List.mem_tails _ _).mpr behind) t rfl).1 kind
    · exact (each _ ((List.mem_tails _ _).mpr behind) t rfl).2 kind

instance (latest : List Token) (node : Node) : Decidable (node.Heard latest) :=
  decidable_of_iff' _ Node.heard_iff

structure Node.Clear (latest : List Token) (node : Node) : Prop extends Node.Heard latest node where
  read : node.kind ≠ .error

theorem Node.Clear.before {latest earlier : List Token} {node : Node} (h : node.Clear latest)
    (before : earlier <:+ latest) : node.Clear earlier where
  symbol isSymbol t ts behind := h.symbol isSymbol t ts (behind.trans before)
  word opens t ts behind := h.word opens t ts (behind.trans before)
  read := h.read

/-- The run stands behind earlier tokens, all of which fit, and the nodes are clear up to its
end. -/
structure Runs (us : List Token) (nodes : List Node) (earlier : List Token) : Prop where
  fit : AllFit (us.reverse ++ earlier)
  clear : ∀ node ∈ nodes, ∀ n ∈ node.preorder, n.Clear (us.reverse ++ earlier)

def Settles (us : List Token) (nodes : List Node) : Prop :=
  ∀ earlier, Runs us nodes earlier → Drifts (enclosures earlier) (enclosures (us.reverse ++ earlier))

def Leaks (us : List Token) (nodes : List Node) : Prop :=
  ∀ earlier, Runs us nodes earlier →
    ∃ k, enclosures (us.reverse ++ earlier) = List.replicate k .block ++ enclosures earlier

def Returns (inside : List Enclosure → List Enclosure → Prop) (us : List Token)
    (nodes : List Node) : Prop :=
  ∀ earlier now outer, Runs us nodes earlier → inside now outer → Drifts now (enclosures earlier) →
    Drifts outer (enclosures (us.reverse ++ earlier))

theorem AllFit.right {ts earlier : List Token} (h : AllFit (ts ++ earlier)) : AllFit earlier := by
  induction ts with
  | nil => exact h
  | cons t ts ih =>
    cases h with
    | cons _ rest => exact ih rest

section Runs

variable {us vs earlier : List Token} {nodes more : List Node} {node : Node} {t : Token}
  {inside : List Enclosure → List Enclosure → Prop}

theorem Runs.left (h : Runs (us ++ vs) (nodes ++ more) earlier) : Runs us nodes earlier := by
  obtain ⟨fit, clear⟩ := h
  rw [List.reverse_append, List.append_assoc] at fit clear
  refine ⟨fit.right, ?_⟩
  intro node member n below
  exact (clear node (List.mem_append_left _ member) n below).before (List.suffix_append _ _)

theorem Runs.right (h : Runs (us ++ vs) (nodes ++ more) earlier) :
    Runs vs more (us.reverse ++ earlier) := by
  obtain ⟨fit, clear⟩ := h
  rw [List.reverse_append, List.append_assoc] at fit clear
  exact ⟨fit, fun node member => clear node (List.mem_append_right _ member)⟩

/-- Where a node is clear, its children are. -/
theorem Runs.below (h : Runs us [node] earlier) (within : ∀ n ∈ nodes, n ∈ node.children) :
    Runs us nodes earlier := by
  refine ⟨h.fit, ?_⟩
  intro child member n below
  exact h.clear node (by simp) n (Node.mem_preorder.mpr (.inr ⟨child, within child member, below⟩))

theorem Runs.self (h : Runs us [node] earlier) : node.Clear (us.reverse ++ earlier) :=
  h.clear node (by simp) node (Node.mem_preorder.mpr (.inl rfl))

theorem Runs.first (h : Runs ([t] ++ us) nodes earlier) : t.Fits earlier := by
  have fit := h.fit
  rw [List.reverse_append, List.append_assoc] at fit
  cases fit.right with
  | cons fits _ => exact fits

/-- Behind the first token of a run. -/
theorem Runs.next (h : Runs ([t] ++ us) nodes earlier) : Runs us nodes (t :: earlier) := by
  have same : [t] ++ us = [t] ++ us ∧ nodes = [] ++ nodes := by simp
  rw [same.2] at h
  exact h.right

theorem enclosures_next (t : Token) (us earlier : List Token) :
    enclosures (([t] ++ us).reverse ++ earlier) = enclosures (us.reverse ++ t :: earlier) := by
  simp

namespace Settles

theorem nil : Settles [] [] := fun earlier _ => .refl (enclosures earlier)

theorem append (h : Settles us nodes) (k : Settles vs more) :
    Settles (us ++ vs) (nodes ++ more) := by
  intro earlier runs
  rw [List.reverse_append, List.append_assoc]
  exact (h _ runs.left).trans (k _ runs.right)

/-- The nodes of a run may be gathered in one. -/
theorem under (h : Settles us nodes) (within : ∀ n ∈ nodes, n ∈ node.children) :
    Settles us [node] :=
  fun earlier runs => h earlier (runs.below within)

theorem leaks (h : Settles us nodes) : Leaks us nodes := by
  intro earlier runs
  obtain ⟨k, drifted, -⟩ := h earlier runs
  exact ⟨k, drifted⟩

theorem before (h : Settles us nodes) (k : Returns inside vs more) :
    Returns inside (us ++ vs) (nodes ++ more) := by
  intro earlier now outer runs within drifts
  rw [List.reverse_append, List.append_assoc]
  exact k _ now outer runs.right within (drifts.trans (h _ runs.left))

end Settles

theorem Returns.under (h : Returns inside us nodes) (within : ∀ n ∈ nodes, n ∈ node.children) :
    Returns inside us [node] :=
  fun earlier now outer runs => h earlier now outer (runs.below within)

namespace Leaks

theorem append (h : Leaks us nodes) (k : Leaks vs more) : Leaks (us ++ vs) (nodes ++ more) := by
  intro earlier runs
  obtain ⟨first, early⟩ := h _ runs.left
  obtain ⟨second, late⟩ := k _ runs.right
  refine ⟨second + first, ?_⟩
  rw [List.reverse_append, List.append_assoc, late, early, ← List.append_assoc,
    List.replicate_append_replicate]

theorem under (h : Leaks us nodes) (within : ∀ n ∈ nodes, n ∈ node.children) : Leaks us [node] :=
  fun earlier runs => h earlier (runs.below within)

end Leaks

end Runs

def Keyword.isStill : Keyword → Bool
  | .abstractKw | .primitiveKw | .beginKw | .forKw | .ifKw | .endKw => false
  | word => !word.opensBlock

def Token.isStill (t : Token) : Bool :=
  match t.kind with
  | .keyword word => word.isStill
  | .punctuation => t.text == [','] || t.text == [';']
  | .stringChunk => true
  | kind => kind.isQuiet

section Tokens

variable {us earlier : List Token} {nodes : List Node} {node : Node} {t : Token}

theorem Keyword.opensIn_still {word : Keyword} (h : word.isStill = true) (last : Option Token)
    (opened : List Enclosure) : word.opensIn last opened = false := by
  cases word <;> first | rfl | cases h

/-- A token of code, where no string is open. -/
theorem enclosures_code (code : ¬ InString earlier) (t : Token) :
    enclosures (t :: earlier) = t.encloseCode earlier.head? (enclosures earlier) := by
  rw [enclosures, enclose_code code]

theorem encloseCode_still (h : t.isStill = true) (chunk : t.kind ≠ .stringChunk)
    (last : Option Token) (opened : List Enclosure) : t.encloseCode last opened = opened := by
  by_cases quiet : t.kind.isQuiet = true
  · exact encloseCode_quiet quiet last opened
  · obtain ⟨kind, text, span, spaced⟩ := t
    cases kind with
    | keyword word =>
      have other : word ≠ .endKw := by
        rintro rfl
        cases h
      rw [encloseCode_keyword rfl other, Keyword.opensIn_still h, if_neg Bool.false_ne_true]
    | punctuation =>
      simp only [Token.isStill, Bool.or_eq_true, beq_iff_eq] at h
      rcases h with rfl | rfl <;> rfl
    | stringChunk => exact absurd rfl chunk
    | stringStart | stringEnd | error => cases h
    | _ => exact absurd rfl quiet

theorem enclosures_still (h : t.isStill = true) (fits : t.Fits earlier) :
    enclosures (t :: earlier) = enclosures earlier := by
  by_cases string : InString earlier
  · -- directly in a string only its end and the bracket of an interpolation count
    refine enclosures_part string ⟨?_, ?_⟩
    · intro ends
      simp [Token.isStill, ends, Token.Kind.isQuiet] at h
    · intro bracket
      simp [Token.isStill, bracket, (fits.bracket string bracket).1] at h
  · rw [enclosures_code string]
    exact encloseCode_still h (fun chunk => string (fits.chunk chunk)) _ _

theorem settles_still (h : t.isStill = true) : Settles [t] [] := by
  intro earlier runs
  change Drifts (enclosures earlier) (enclosures (t :: earlier))
  rw [enclosures_still h (@Runs.first [] earlier [] t runs)]
  exact .refl _

end Tokens

section Brackets

variable {us earlier : List Token} {nodes : List Node} {t : Token}

inductive Bracket where
  | round | square | curly

namespace Bracket

def first : Bracket → Char
  | round => '('
  | square => '['
  | curly => '{'

def last : Bracket → Char
  | round => ')'
  | square => ']'
  | curly => '}'

def closes : Bracket → Enclosure → Bool
  | round, e => e == .round || e == .interpolation
  | square, e => e == .square
  | curly, e => e == .curly

def Inside (bracket : Bracket) (now outer : List Enclosure) : Prop :=
  ∃ k e, bracket.closes e = true ∧ now = List.replicate k .block ++ e :: outer

end Bracket

variable {bracket : Bracket}

theorem close_inside {now outer : List Enclosure} (h : bracket.Inside now outer) :
    Enclosure.close bracket.closes Enclosure.shields now = outer := by
  obtain ⟨k, e, closes, rfl⟩ := h
  have block : bracket.closes .block = false := by cases bracket <;> rfl
  have found : Enclosure.close? bracket.closes Enclosure.shields
      (List.replicate k .block ++ e :: outer) = some outer := by
    induction k with
    | zero => simp [Enclosure.close?, closes]
    | succ k ih => simpa [List.replicate_succ, Enclosure.close?, block, Enclosure.shields] using ih
  rw [Enclosure.close, found, Option.getD_some]

theorem Bracket.Inside.code {now outer : List Enclosure} (h : bracket.Inside now outer)
    (start : Token) (rest : List Enclosure) : now ≠ .string start :: rest := by
  obtain ⟨k, e, closes, rfl⟩ := h
  cases k with
  | zero =>
    rintro same
    cases same
    cases bracket <;> cases closes
  | succ k =>
    intro same
    cases same

theorem Bracket.Inside.further {now outer : List Enclosure} (h : bracket.Inside now outer)
    (k : Nat) : bracket.Inside (List.replicate k .block ++ now) outer := by
  obtain ⟨l, e, closes, rfl⟩ := h
  refine ⟨k + l, e, closes, ?_⟩
  rw [← List.append_assoc, List.replicate_append_replicate]

theorem returns_closing (bracket : Bracket) (h : t.isPunctuation bracket.last = true) :
    Returns bracket.Inside [t] [] := by
  rintro earlier now outer runs within ⟨k, drifted, -⟩
  have inside : bracket.Inside (enclosures earlier) outer := drifted ▸ within.further k
  have code : ¬ InString earlier := by
    rintro ⟨start, rest, same⟩
    exact inside.code start rest same
  have closed : enclosures (t :: earlier) = outer := by
    rw [enclosures_code code, ← close_inside inside]
    obtain ⟨kind, text, span, spaced⟩ := t
    simp only [Token.isPunctuation, Bool.and_eq_true, beq_iff_eq] at h
    obtain ⟨rfl, rfl⟩ := h
    cases bracket <;> rfl
  change Drifts outer (enclosures (t :: earlier))
  rw [closed]
  exact .refl outer

/-- Inside a string, a bracket opens an interpolation. -/
theorem settles_opening (bracket : Bracket) (h : t.isPunctuation bracket.first = true)
    (rest : Returns bracket.Inside us nodes) : Settles ([t] ++ us) nodes := by
  intro earlier runs
  rw [enclosures_next]
  refine rest _ _ _ runs.next ?_ (.refl _)
  obtain ⟨kind, text, span, spaced⟩ := t
  simp only [Token.isPunctuation, Bool.and_eq_true, beq_iff_eq] at h
  obtain ⟨rfl, rfl⟩ := h
  by_cases string : InString earlier
  · have isRound := (runs.first.bracket string rfl).1
    obtain ⟨start, outer, same⟩ := string
    obtain rfl : bracket = .round := by
      cases bracket
      · rfl
      · cases isRound
      · cases isRound
    exact ⟨0, .interpolation, rfl, by simp [enclosures, same, Token.enclose]⟩
  · rw [enclosures_code string]
    cases bracket with
    | round => exact ⟨0, .round, rfl, rfl⟩
    | square => exact ⟨0, .square, rfl, rfl⟩
    | curly => exact ⟨0, .curly, rfl, rfl⟩

theorem Leaks.before {ts : List Token} {more : List Node} (h : Leaks ts more)
    (rest : Returns bracket.Inside us nodes) :
    Returns bracket.Inside (ts ++ us) (more ++ nodes) := by
  rintro earlier now outer runs inside ⟨l, drifted, -⟩
  rw [List.reverse_append, List.append_assoc]
  refine rest _ _ outer runs.right ?_ (.refl _)
  obtain ⟨k, leaked⟩ := h _ runs.left
  rw [leaked, drifted]
  exact (inside.further l).further k

end Brackets

section Blocks

variable {us earlier : List Token} {nodes : List Node} {node : Node} {t : Token} {word : Keyword}

/-- Behind a word that opens a block. Directly in a string, words do nothing. -/
def InBlock (now outer : List Enclosure) : Prop :=
  now = .block :: outer ∨ now = outer ∧ ∃ start rest, outer = .string start :: rest

theorem enclosures_word (kind : t.kind = .keyword word) (string : InString earlier) :
    enclosures (t :: earlier) = enclosures earlier :=
  enclosures_part string (by simp [kind])

/-- Of the blocks that are open inside a bracket, `end` closes one. -/
theorem returns_end (h : t.isKeyword .endKw = true) : Returns InBlock [t] [] := by
  intro earlier now outer runs inside drifts
  have kind : t.kind = .keyword .endKw := beq_iff_eq.mp h
  change Drifts outer (enclosures (t :: earlier))
  rcases inside with rfl | ⟨rfl, start, rest, rfl⟩
  · obtain ⟨k, drifted, bracket⟩ := drifts
    have same : enclosures earlier = .block :: (List.replicate k .block ++ outer) := by
      rw [drifted, ← List.cons_append, ← List.replicate_succ, List.replicate_succ']
      simp
    have code : ¬ InString earlier := by
      rintro ⟨start, rest, string⟩
      rw [same] at string
      cases string
    have closed : enclosures (t :: earlier) = List.replicate k .block ++ outer := by
      rw [enclosures_code code, same]
      obtain ⟨_, text, span, spaced⟩ := t
      cases kind
      rfl
    exact ⟨k, closed, bracket⟩
  · have same := drifts.exact rfl
    rw [enclosures_word kind ⟨start, rest, same⟩, same]
    exact .refl _

/-- Behind a word that opens a block where it stands. -/
theorem inBlock_of_word (kind : t.kind = .keyword word) (other : word ≠ .endKw)
    (opens : word.opensIn earlier.head? (enclosures earlier) = true) :
    InBlock (enclosures (t :: earlier)) (enclosures earlier) := by
  by_cases string : InString earlier
  · exact .inr ⟨enclosures_word kind string, string⟩
  · refine .inl ?_
    rw [enclosures_code string, encloseCode_keyword kind other, opens, if_pos rfl]

def Keyword.alwaysOpens : Keyword → Bool
  | .abstractKw | .primitiveKw | .beginKw => true
  | word => word.opensBlock

theorem settles_word (h : t.isKeyword word = true) (opens : word.alwaysOpens = true)
    (rest : Returns InBlock us nodes) : Settles ([t] ++ us) nodes := by
  intro earlier runs
  rw [enclosures_next]
  refine rest _ _ _ runs.next (inBlock_of_word (beq_iff_eq.mp h) ?_ ?_) (.refl _)
  · rintro rfl
    cases opens
  · cases word <;> first | rfl | cases opens

/-- A conditional or loop, whose word has to be heard. -/
theorem settles_heard (kind : node.kind = .ifStatement ∨ node.kind = .forStatement)
    (start : t.span.start = node.span.start) (rest : Returns InBlock us [node]) :
    Settles ([t] ++ us) [node] := by
  intro earlier runs
  rw [enclosures_next]
  -- whether the word opens a block depends on what is before it, so the node has to say so
  refine rest _ _ _ runs.next (.inl (runs.self.word kind t earlier ?_ start)) (.refl _)
  rw [List.reverse_append, List.append_assoc]
  exact List.suffix_append _ _

/-- The words of a comprehension may open blocks. -/
theorem leaks_word (h : t.isKeyword word = true) (other : word ≠ .endKw) : Leaks [t] [] := by
  intro earlier _
  have kind : t.kind = .keyword word := beq_iff_eq.mp h
  change ∃ k, enclosures (t :: earlier) = _
  by_cases string : InString earlier
  · exact ⟨0, enclosures_word kind string⟩
  · rw [enclosures_code string, encloseCode_keyword kind other]
    split
    · exact ⟨1, rfl⟩
    · exact ⟨0, rfl⟩

end Blocks

section Leaves

variable {us : List Token} {nodes : List Node} {t : Token}

def AtString (now outer : List Enclosure) : Prop := ∃ start, now = .string start :: outer

theorem settles_stringStart (h : t.kind = .stringStart) (rest : Returns AtString us nodes) :
    Settles ([t] ++ us) nodes := by
  intro earlier runs
  rw [enclosures_next]
  refine rest _ _ _ runs.next ⟨t, ?_⟩ (.refl _)
  rw [enclosures_code (runs.first.starts h)]
  obtain ⟨_, text, span, spaced⟩ := t
  cases h
  rfl

theorem returns_stringEnd (h : t.kind = .stringEnd) : Returns AtString [t] [] := by
  rintro earlier _ outer runs ⟨start, rfl⟩ drifts
  have same := drifts.exact rfl
  have closed : enclosures (t :: earlier) = outer := by simp [enclosures, same, Token.enclose, h]
  change Drifts outer (enclosures (t :: earlier))
  rw [closed]
  exact .refl outer

/-- A symbol leaves open what was open if it is heard. -/
theorem settles_symbol {colon : Token} (h : colon.isStill = true) :
    Settles ([colon] ++ [t]) [.leaf .symbol ⟨colon.span.start, t.span.stop⟩] := by
  intro earlier runs
  have still := enclosures_still h runs.first
  change Drifts (enclosures earlier) (enclosures (t :: colon :: earlier))
  rw [← still]
  rcases runs.self.symbol rfl t (colon :: earlier) (List.suffix_refl _) rfl with
    word | ⟨word, inside⟩
  · rw [word]
    exact .refl _
  · exact ⟨1, word, fun _ => inside⟩

/-- Tokens that no rule reads have not been heard. -/
theorem settles_unread (ts : List Token) (span : Span) : Settles ts [.leaf .error span] := by
  intro earlier runs
  exact absurd rfl runs.self.read

end Leaves

end CellBindings
