import Mathlib.Data.List.Induction
import Mathlib.Data.List.Infix
import CellBindings.Scope

/-!
What a stack of scopes remembers. Frames are opened and closed, and names are bound or declared in
the innermost of them. The stack answers for a name as the history of these operations does: of the
words on the name that were spoken while a frame was the innermost one, and which is still open, the
last one in the innermost such frame counts. What happens between the opening of a frame and its
closing is forgotten.
-/

namespace CellBindings

inductive ScopeOperation where
  | push (kind : ScopeKind)
  | pop
  | bind (name : Text)
  | declareGlobal (name : Text)
  deriving DecidableEq, Repr

namespace ScopeOperation

def isPush : ScopeOperation → Bool
  | .push _ => true
  | _ => false

def isPop : ScopeOperation → Bool
  | .pop => true
  | _ => false

def answer? (name : Text) : ScopeOperation → Option Resolution
  | .bind other => if other = name then some .bound else none
  | .declareGlobal other => if other = name then some .global else none
  | _ => none

/-- Outside all frames nothing is bound or declared, and nothing is closed. -/
def run (scopes : ScopeStack) : ScopeOperation → ScopeStack
  | .push kind => scopes.push kind
  | .pop => scopes.pop
  | .bind name => (scopes.bind? name).getD scopes
  | .declareGlobal name => (scopes.declareGlobal? name).getD scopes

end ScopeOperation

def ScopeStack.runAll (scopes : ScopeStack) (ops : List ScopeOperation) : ScopeStack :=
  ops.foldl ScopeOperation.run scopes

def ScopeStack.after (history : List ScopeOperation) : ScopeStack := ScopeStack.empty.runAll history

def ScopeFrame.answer? (frame : ScopeFrame) (name : Text) : Option Resolution :=
  if frame.bound.contains name then some .bound
  else if frame.globals.contains name then some .global
  else none

namespace ScopeHistory

def opened (ops : List ScopeOperation) : Nat := ops.countP (·.isPush)

def closed (ops : List ScopeOperation) : Nat := ops.countP (·.isPop)

def Keeps (ops : List ScopeOperation) : Prop := ∀ front, front <+: ops → closed front ≤ opened front

def Balanced (ops : List ScopeOperation) : Prop := Keeps ops ∧ closed ops = opened ops

instance (ops : List ScopeOperation) : Decidable (Keeps ops) :=
  decidable_of_iff (∀ front ∈ ops.inits, closed front ≤ opened front) (by simp [Keeps])

instance (ops : List ScopeOperation) : Decidable (Balanced ops) :=
  inferInstanceAs (Decidable (_ ∧ _))

def Opens (history : List ScopeOperation) (i : Nat) : Prop :=
  history[i]?.any (·.isPush) = true ∧ Keeps (history.drop (i + 1))

instance (history : List ScopeOperation) (i : Nat) : Decidable (Opens history i) :=
  inferInstanceAs (Decidable (_ ∧ _))

/-- Operation `j` gives the answer for the name, at a time when the frame that operation `i` opens
is the innermost one, and this frame is not closed yet. -/
structure Mentions (history : List ScopeOperation) (name : Text) (i j : Nat) (answer : Resolution) :
    Prop where
  opens : Opens history i
  later : i < j
  innermost : Balanced ((history.take j).drop (i + 1))
  answers : history[j]?.bind (·.answer? name) = some answer

structure Decides (history : List ScopeOperation) (name : Text) (i j : Nat) (answer : Resolution) :
    Prop extends Mentions history name i j answer where
  last : ∀ frame word other, Mentions history name frame word other →
    frame < i ∨ frame = i ∧ word ≤ j

section Counting

variable {ops more : List ScopeOperation}

@[simp] theorem opened_append : opened (ops ++ more) = opened ops + opened more :=
  List.countP_append

@[simp] theorem closed_append : closed (ops ++ more) = closed ops + closed more :=
  List.countP_append

theorem Keeps.closed_le (h : Keeps ops) : closed ops ≤ opened ops := h ops List.prefix_rfl

theorem Keeps.front (h : Keeps ops) (front : more <+: ops) : Keeps more :=
  fun _ starts => h _ (starts.trans front)

theorem Keeps.left (h : Keeps (ops ++ more)) : Keeps ops := h.front (List.prefix_append _ _)

theorem Keeps.append (h : Keeps ops) (k : Keeps more) : Keeps (ops ++ more) := by
  intro front starts
  rw [List.prefix_iff_eq_take.mp starts, List.take_append, opened_append, closed_append]
  have := h _ (List.take_prefix front.length ops)
  have := k _ (List.take_prefix (front.length - ops.length) more)
  omega

theorem Balanced.append (h : Balanced ops) (k : Balanced more) : Balanced (ops ++ more) := by
  constructor
  · exact h.1.append k.1
  · rw [opened_append, closed_append, h.2, k.2]

theorem Keeps.concat {op : ScopeOperation} (h : Keeps ops)
    (total : closed (ops ++ [op]) ≤ opened (ops ++ [op])) : Keeps (ops ++ [op]) := by
  intro front starts
  rcases List.prefix_concat_iff.mp starts with rfl | early
  · exact total
  · exact h front early

theorem Keeps.push (h : Keeps ops) (kind : ScopeKind) : Keeps (.push kind :: ops) := by
  have total : closed [.push kind] ≤ opened [.push kind] := by
    simp [opened, closed, ScopeOperation.isPush, ScopeOperation.isPop]
  have first : Keeps [.push kind] := @Keeps.concat [] _ (by decide) total
  exact first.append h

/-- A frame that is opened and closed again. -/
theorem Balanced.frame (h : Balanced ops) (kind : ScopeKind) :
    Balanced (.push kind :: (ops ++ [.pop])) := by
  have counts :
      closed (.push kind :: (ops ++ [.pop])) = opened (.push kind :: (ops ++ [.pop])) := by
    have := h.2
    simp [opened, closed, ScopeOperation.isPush, ScopeOperation.isPop] at this ⊢
    omega
  exact ⟨(h.1.push kind).concat counts.le, counts⟩

/-- Balanced operations leave no frame of their own open. -/
theorem Balanced.not_keeps {kind : ScopeKind} (h : Balanced (ops ++ .push kind :: more)) :
    ¬ Keeps more := by
  intro keeps
  have front := h.1.left.closed_le
  have back := keeps.closed_le
  have total := h.2
  simp [opened, closed, ScopeOperation.isPush, ScopeOperation.isPop] at front back total
  omega

end Counting

/-- The word on a name that comes first among some operations, the latest of them first. Only those
count that run while the operations before them have no frame open. -/
def latestWord (name : Text) : List ScopeOperation → Option Resolution
  | [] => none
  | op :: earlier =>
    (if Balanced earlier.reverse then op.answer? name else none).or (latestWord name earlier)

def lastWord (name : Text) (ops : List ScopeOperation) : Option Resolution :=
  latestWord name ops.reverse

def wordAt (name : Text) (ops : List ScopeOperation) (j : Nat) : Option Resolution :=
  if Balanced (ops.take j) then ops[j]?.bind (·.answer? name) else none

section LastWord

variable {name : Text} {ops : List ScopeOperation} {op : ScopeOperation} {answer : Resolution}

theorem lastWord_concat : lastWord name (ops ++ [op]) =
    (if Balanced ops then op.answer? name else none).or (lastWord name ops) := by
  rw [lastWord, List.reverse_concat, latestWord, List.reverse_reverse, ← lastWord]

theorem wordAt_concat_lt {j : Nat} (inside : j < ops.length) :
    wordAt name (ops ++ [op]) j = wordAt name ops j := by
  rw [wordAt, List.take_append_of_le_length (by omega), List.getElem?_append_left inside, ← wordAt]

theorem wordAt_concat_length :
    wordAt name (ops ++ [op]) ops.length = if Balanced ops then op.answer? name else none := by
  simp [wordAt]

theorem wordAt_of_length_le {j : Nat} (outside : ops.length ≤ j) : wordAt name ops j = none := by
  simp [wordAt, List.getElem?_eq_none outside]

theorem wordAt_concat_gt {j : Nat} (outside : ops.length < j) :
    wordAt name (ops ++ [op]) j = none := by
  apply wordAt_of_length_le
  rw [List.length_append, List.length_singleton]
  omega

theorem wordAt_of_lastWord_none (h : lastWord name ops = none) (j : Nat) :
    wordAt name ops j = none := by
  induction ops using List.reverseRecOn with
  | nil => simp [wordAt]
  | append_singleton ops op ih =>
    rw [lastWord_concat, Option.or_eq_none_iff] at h
    rcases Nat.lt_trichotomy j ops.length with before | rfl | behind
    · rw [wordAt_concat_lt before]
      exact ih h.2
    · rw [wordAt_concat_length]
      exact h.1
    · exact wordAt_concat_gt behind

theorem wordAt_of_lastWord (h : lastWord name ops = some answer) :
    ∃ j, wordAt name ops j = some answer ∧ ∀ k, j < k → wordAt name ops k = none := by
  induction ops using List.reverseRecOn with
  | nil => cases h
  | append_singleton ops op ih =>
    rw [lastWord_concat] at h
    rcases Option.or_eq_some_iff.mp h with here | ⟨silent, before⟩
    · exact ⟨ops.length, wordAt_concat_length.trans here, fun k => wordAt_concat_gt⟩
    · obtain ⟨j, spoken, last⟩ := ih before
      have inside : j < ops.length := by
        by_contra outside
        rw [wordAt_of_length_le (by omega)] at spoken
        cases spoken
      refine ⟨j, (wordAt_concat_lt inside).trans spoken, fun k behind => ?_⟩
      rcases Nat.lt_trichotomy k ops.length with early | rfl | late
      · rw [wordAt_concat_lt early]
        exact last k behind
      · rw [wordAt_concat_length]
        exact silent
      · exact wordAt_concat_gt late

end LastWord

end ScopeHistory

namespace ScopeFrame

variable {frame : ScopeFrame} {name other : Text}

@[simp] theorem answer?_empty (kind : ScopeKind) (name : Text) :
    (empty kind).answer? name = none := by
  simp [answer?, empty]

/-- A word on a frame is the last one, whatever the frame said before. -/
theorem answer?_bind : (frame.bind other).answer? name =
    (ScopeOperation.answer? name (.bind other)).or (frame.answer? name) := by
  by_cases same : other = name
  · simp [answer?, bind, ScopeOperation.answer?, same]
  · simp [answer?, bind, ScopeOperation.answer?, same, Ne.symm same]

theorem answer?_declareGlobal : (frame.declareGlobal other).answer? name =
    (ScopeOperation.answer? name (.declareGlobal other)).or (frame.answer? name) := by
  by_cases same : other = name
  · simp [answer?, declareGlobal, ScopeOperation.answer?, same]
  · simp [answer?, declareGlobal, ScopeOperation.answer?, same, Ne.symm same]

end ScopeFrame

namespace ScopeHistory

/-- What operations leave of a frame and the frames outside it, when they keep these: frames of
their own inside it, and the last words on each name that were spoken in it. -/
def Leaves (frame : ScopeFrame) (outer : List ScopeFrame) (ops : List ScopeOperation)
    (frames : List ScopeFrame) : Prop :=
  ∃ inner own, frames = inner ++ own :: outer ∧ closed ops + inner.length = opened ops ∧
    ∀ name, own.answer? name = (lastWord name ops).or (frame.answer? name)

section Running

variable {frame : ScopeFrame} {outer frames : List ScopeFrame} {ops : List ScopeOperation}

theorem runAll_concat (scopes : ScopeStack) (ops : List ScopeOperation) (op : ScopeOperation) :
    scopes.runAll (ops ++ [op]) = op.run (scopes.runAll ops) := by
  rw [ScopeStack.runAll, List.foldl_concat, ← ScopeStack.runAll]

theorem runAll_append (scopes : ScopeStack) (ops more : List ScopeOperation) :
    scopes.runAll (ops ++ more) = (scopes.runAll ops).runAll more :=
  List.foldl_append

/-- An operation that speaks about names changes the innermost frame only. -/
theorem Leaves.word (h : Leaves frame outer ops frames) (keeps : Keeps ops) (op : ScopeOperation)
    (plain : op.isPush = false ∧ op.isPop = false) (change : ScopeFrame → ScopeFrame)
    (answers : ∀ frame name,
      (change frame).answer? name = (op.answer? name).or (frame.answer? name)) :
    ∃ first rest, frames = first :: rest ∧
      Leaves frame outer (ops ++ [op]) (change first :: rest) := by
  obtain ⟨inner, own, rfl, count, spoken⟩ := h
  have counts : closed (ops ++ [op]) + inner.length = opened (ops ++ [op]) := by
    simpa [opened, closed, plain.1, plain.2] using count
  cases inner with
  | nil =>
    have balanced : Balanced ops := ⟨keeps, by simpa using count⟩
    refine ⟨own, outer, rfl, [], change own, rfl, counts, fun name => ?_⟩
    rw [answers, spoken, lastWord_concat, if_pos balanced, Option.or_assoc]
  | cons first inner =>
    have unbalanced : ¬ Balanced ops := by
      intro balanced
      have := balanced.2
      rw [List.length_cons] at count
      omega
    refine ⟨first, inner ++ own :: outer, rfl, change first :: inner, own, rfl, counts, ?_⟩
    intro name
    rw [spoken, lastWord_concat, if_neg unbalanced, Option.none_or]

/-- Operations that keep a frame leave it with the last words spoken in it. -/
theorem runAll_leaves (keeps : Keeps ops) (frame : ScopeFrame) (outer : List ScopeFrame) :
    Leaves frame outer ops ((ScopeStack.mk (frame :: outer)).runAll ops).frames := by
  induction ops using List.reverseRecOn with
  | nil => exact ⟨[], frame, rfl, rfl, fun _ => rfl⟩
  | append_singleton ops op ih =>
    have before := ih keeps.left
    rw [runAll_concat]
    generalize (ScopeStack.mk (frame :: outer)).runAll ops = scopes at before ⊢
    obtain ⟨frames⟩ := scopes
    cases op with
    | push kind =>
      obtain ⟨inner, own, rfl, count, spoken⟩ := before
      refine ⟨.empty kind :: inner, own, rfl, ?_, fun name => ?_⟩
      · simp [opened, closed, ScopeOperation.isPush, ScopeOperation.isPop] at count ⊢
        omega
      · rw [spoken, lastWord_concat]
        simp [ScopeOperation.answer?]
    | pop =>
      obtain ⟨inner, own, rfl, count, spoken⟩ := before
      have total := keeps.closed_le
      simp [opened, closed, ScopeOperation.isPush, ScopeOperation.isPop] at count total
      cases inner with
      | nil =>
        rw [List.length_nil] at count
        omega
      | cons first inner =>
        refine ⟨inner, own, rfl, ?_, fun name => ?_⟩
        · simp [opened, closed, ScopeOperation.isPush, ScopeOperation.isPop] at count ⊢
          omega
        · rw [spoken, lastWord_concat]
          simp [ScopeOperation.answer?]
    | bind name =>
      obtain ⟨first, rest, rfl, leaves⟩ := before.word keeps.left (.bind name) ⟨rfl, rfl⟩
        (·.bind name) fun _ _ => ScopeFrame.answer?_bind
      exact leaves
    | declareGlobal name =>
      obtain ⟨first, rest, rfl, leaves⟩ := before.word keeps.left (.declareGlobal name) ⟨rfl, rfl⟩
        (·.declareGlobal name) fun _ _ => ScopeFrame.answer?_declareGlobal
      exact leaves

/-- What happens in a frame is forgotten when it is closed. -/
theorem runAll_frame (h : Balanced ops) (kind : ScopeKind) (scopes : ScopeStack) :
    scopes.runAll (.push kind :: (ops ++ [.pop])) = scopes := by
  obtain ⟨inner, own, frames, count, -⟩ := runAll_leaves h.1 (.empty kind) scopes.frames
  have none : inner = [] := List.eq_nil_of_length_eq_zero (by have := h.2; omega)
  rw [← List.cons_append, runAll_concat]
  change ((scopes.push kind).runAll ops).pop = scopes
  rw [ScopeStack.pop, ScopeStack.push, frames, none]
  rfl

end Running

section Innermost

variable {history earlier own : List ScopeOperation} {kind : ScopeKind} {name : Text} {i j : Nat}
  {answer : Resolution}

theorem Opens.lt_length (h : Opens history i) : i < history.length := by
  by_contra outside
  have := h.1
  rw [List.getElem?_eq_none (by omega)] at this
  cases this

theorem Mentions.lt_length (h : Mentions history name i j answer) : j < history.length := by
  by_contra outside
  have := h.answers
  rw [List.getElem?_eq_none (by omega)] at this
  cases this

/-- An open frame cuts the history where it is opened. -/
theorem Opens.split (h : Opens history i) :
    ∃ kind, history = history.take i ++ .push kind :: history.drop (i + 1) := by
  obtain ⟨op, there, isPush⟩ := (Option.any_eq_true ..).mp h.1
  obtain ⟨inside, rfl⟩ := List.getElem?_eq_some_iff.mp there
  cases found : history[i] with
  | push kind => exact ⟨kind, by rw [← found, List.getElem_cons_drop, List.take_append_drop]⟩
  | _ =>
    rw [found] at isPush
    cases isPush

theorem Balanced.not_opens (h : Balanced own) (i : Nat) : ¬ Opens own i := by
  intro opens
  obtain ⟨kind, cut⟩ := opens.split
  rw [cut] at h
  exact h.not_keeps opens.2

/-- The operations behind the place where a frame is opened. -/
theorem getElem?_behind (earlier own : List ScopeOperation) (kind : ScopeKind) (k : Nat) :
    (earlier ++ .push kind :: own)[earlier.length + (k + 1)]? = own[k]? := by
  rw [List.getElem?_append_right (by omega), Nat.add_sub_cancel_left, List.getElem?_cons_succ]

theorem drop_behind (earlier own : List ScopeOperation) (kind : ScopeKind) (k : Nat) :
    (earlier ++ .push kind :: own).drop (earlier.length + (k + 1)) = own.drop k := by
  rw [List.drop_append, List.drop_eq_nil_of_le (by omega), Nat.add_sub_cancel_left,
    List.nil_append, List.drop_succ_cons]

/-- If the operations behind the opening of a frame close all that they open, the frame is open, and
so are the frames that were open before it; no other is. -/
theorem opens_innermost (h : Balanced own) :
    Opens (earlier ++ .push kind :: own) i ↔ i = earlier.length ∨ Opens earlier i := by
  rcases Nat.lt_trichotomy i earlier.length with before | rfl | behind
  · have apart : i ≠ earlier.length := by omega
    rw [Opens, Opens, List.getElem?_append_left before, List.drop_append_of_le_length (by omega)]
    constructor
    · exact fun ⟨push, keeps⟩ => .inr ⟨push, keeps.left⟩
    · rintro (same | ⟨push, keeps⟩)
      · exact absurd same apart
      · exact ⟨push, keeps.append (h.1.push kind)⟩
  · simp [Opens, ScopeOperation.isPush, h.1]
  · obtain ⟨k, rfl⟩ : ∃ k, i = earlier.length + (k + 1) := ⟨i - earlier.length - 1, by omega⟩
    constructor
    · rintro ⟨push, keeps⟩
      rw [getElem?_behind] at push
      rw [Nat.add_assoc, drop_behind] at keeps
      exact absurd ⟨push, keeps⟩ (h.not_opens k)
    · rintro (same | opens)
      · omega
      · have := opens.lt_length
        omega

/-- A name is mentioned in the innermost frame, or in the frames before it as it was there. -/
theorem mentions_innermost (h : Balanced own) :
    Mentions (earlier ++ .push kind :: own) name i j answer ↔
      (i = earlier.length ∧ ∃ k, j = earlier.length + (k + 1) ∧ wordAt name own k = some answer) ∨
        Mentions earlier name i j answer := by
  constructor
  · intro mention
    have later := mention.later
    have between := mention.innermost
    rcases (opens_innermost h).mp mention.opens with rfl | opens
    · -- the word is spoken in the innermost frame
      obtain ⟨k, rfl⟩ : ∃ k, j = earlier.length + (k + 1) := ⟨j - earlier.length - 1, by omega⟩
      have answers := mention.answers
      rw [getElem?_behind] at answers
      rw [List.drop_take, drop_behind, List.drop_zero, Nat.add_sub_add_left, Nat.add_sub_cancel]
        at between
      exact .inl ⟨rfl, k, rfl, by rw [wordAt, if_pos between, answers]⟩
    · -- while the innermost frame is open, no other frame is innermost
      have inside := opens.lt_length
      rcases Nat.lt_trichotomy j earlier.length with before | rfl | behind
      · have answers := mention.answers
        rw [List.getElem?_append_left before] at answers
        rw [List.take_append_of_le_length (by omega)] at between
        exact .inr ⟨opens, later, between, answers⟩
      · have answers := mention.answers
        simp [ScopeOperation.answer?] at answers
      · obtain ⟨k, rfl⟩ : ∃ k, j = earlier.length + (k + 1) := ⟨j - earlier.length - 1, by omega⟩
        rw [List.take_length_add_append, List.take_succ_cons,
          List.drop_append_of_le_length (by omega)] at between
        exact absurd (h.1.front (List.take_prefix k own)) between.not_keeps
  · rintro (⟨rfl, k, rfl, spoken⟩ | mention)
    · unfold wordAt at spoken
      split at spoken
      · next balanced =>
        refine ⟨(opens_innermost h).mpr (.inl rfl), by omega, ?_, ?_⟩
        · rw [List.drop_take, drop_behind, List.drop_zero, Nat.add_sub_add_left, Nat.add_sub_cancel]
          exact balanced
        · rw [getElem?_behind]
          exact spoken
      · cases spoken
    · have before := mention.lt_length
      have later := mention.later
      refine ⟨(opens_innermost h).mpr (.inr mention.opens), later, ?_, ?_⟩
      · rw [List.take_append_of_le_length (by omega)]
        exact mention.innermost
      · rw [List.getElem?_append_left before]
        exact mention.answers

/-- Later operations that leave no frame open leave no new frame open. -/
theorem Opens.left {more : List ScopeOperation} (h : Opens (earlier ++ more) i)
    (none : ∀ k, ¬ Opens more k) : Opens earlier i := by
  obtain ⟨push, keeps⟩ := h
  by_cases before : i < earlier.length
  · rw [List.getElem?_append_left before] at push
    rw [List.drop_append_of_le_length (by omega)] at keeps
    exact ⟨push, keeps.left⟩
  · obtain ⟨k, rfl⟩ : ∃ k, i = earlier.length + k := ⟨i - earlier.length, by omega⟩
    rw [List.getElem?_append_right (by omega), Nat.add_sub_cancel_left] at push
    rw [Nat.add_assoc, List.drop_length_add_append] at keeps
    exact absurd ⟨push, keeps⟩ (none k)

theorem not_opens_singleton {op : ScopeOperation} (plain : op.isPush = false) (k : Nat) :
    ¬ Opens [op] k := by
  intro opens
  obtain rfl : k = 0 := by
    have := opens.lt_length
    rw [List.length_singleton] at this
    omega
  have push := opens.1
  simp [plain] at push

def Settled (history : List ScopeOperation) : Prop :=
  ((ScopeStack.after history).frames = [] ∧ ∀ i, ¬ Opens history i) ∨
    ∃ earlier kind own, history = earlier ++ .push kind :: own ∧ Balanced own

/-- Outside all frames, only opening one does anything. -/
theorem settled_outside {op : ScopeOperation} (empty : (ScopeStack.after history).frames = [])
    (none : ∀ i, ¬ Opens history i) (plain : op.isPush = false) : Settled (history ++ [op]) := by
  refine .inl ⟨?_, fun i opens => none i (opens.left (not_opens_singleton plain))⟩
  rw [ScopeStack.after, runAll_concat, ← ScopeStack.after]
  generalize ScopeStack.after history = scopes at empty ⊢
  obtain ⟨frames⟩ := scopes
  cases empty
  cases op with
  | push kind => cases plain
  | _ => rfl

/-- Balanced operations belong to the innermost open frame. -/
theorem Settled.append {more : List ScopeOperation} (h : Settled history) (balanced : Balanced more)
    (same : ScopeStack.after (history ++ more) = ScopeStack.after history) :
    Settled (history ++ more) := by
  rcases h with ⟨empty, none⟩ | ⟨earlier, kind, own, rfl, inner⟩
  · exact .inl ⟨by rw [same, empty], fun i opens => none i (opens.left balanced.not_opens)⟩
  · exact .inr ⟨earlier, kind, own ++ more, by simp, inner.append balanced⟩

theorem settled_word {op : ScopeOperation} (h : Settled history)
    (plain : op.isPush = false ∧ op.isPop = false) : Settled (history ++ [op]) := by
  rcases h with ⟨empty, none⟩ | ⟨earlier, kind, own, rfl, inner⟩
  · exact settled_outside empty none plain.1
  · have word : Balanced [op] := by
      have counts : closed [op] = opened [op] := by simp [closed, opened, plain.1, plain.2]
      exact ⟨@Keeps.concat [] op (by decide) counts.le, counts⟩
    exact .inr ⟨earlier, kind, own ++ [op], by simp, inner.append word⟩

/-- Induction on the length: when a frame is closed, the history before it was opened says which one
is the innermost now. -/
theorem settled (history : List ScopeOperation) : Settled history := by
  induction size : history.length using Nat.strong_induction_on generalizing history with
  | _ size ih =>
    subst size
    rcases List.eq_nil_or_concat history with rfl | ⟨before, op, rfl⟩
    · exact .inl ⟨rfl, fun i opens => absurd opens.lt_length (Nat.not_lt_zero i)⟩
    · rw [List.concat_eq_append] at ih ⊢
      have last := ih before.length (by simp) before rfl
      cases op with
      | push kind => exact .inr ⟨before, kind, [], rfl, by decide⟩
      | bind name => exact settled_word last ⟨rfl, rfl⟩
      | declareGlobal name => exact settled_word last ⟨rfl, rfl⟩
      | pop =>
        rcases last with ⟨empty, none⟩ | ⟨earlier, kind, own, rfl, inner⟩
        · exact settled_outside empty none rfl
        · have outer := ih earlier.length
            (by simp only [List.length_append, List.length_cons]; omega) earlier rfl
          rw [List.append_assoc, List.cons_append]
          apply outer.append (inner.frame kind)
          rw [ScopeStack.after, runAll_append, runAll_frame inner, ScopeStack.after]

/-- Induction over the open frames, from the outermost one inwards. -/
@[elab_as_elim]
theorem openFrames_induction {motive : List ScopeOperation → Prop}
    (outside : ∀ history, (ScopeStack.after history).frames = [] → (∀ i, ¬ Opens history i) →
      motive history)
    (inside : ∀ earlier kind own, Balanced own → motive earlier →
      motive (earlier ++ .push kind :: own))
    (history : List ScopeOperation) : motive history := by
  induction size : history.length using Nat.strong_induction_on generalizing history with
  | _ size ih =>
    subst size
    rcases settled history with ⟨empty, none⟩ | ⟨earlier, kind, own, rfl, inner⟩
    · exact outside history empty none
    · exact inside earlier kind own inner (ih earlier.length (by simp) earlier rfl)

/-- The innermost frame has the last words spoken in it, and the frames outside it are those that
the history had before. -/
theorem after_innermost (h : Balanced own) :
    ∃ frame, (ScopeStack.after (earlier ++ .push kind :: own)).frames =
        frame :: (ScopeStack.after earlier).frames ∧
      ∀ name, frame.answer? name = lastWord name own := by
  obtain ⟨inner, frame, frames, count, spoken⟩ :=
    runAll_leaves h.1 (.empty kind) (ScopeStack.after earlier).frames
  have none : inner = [] := List.eq_nil_of_length_eq_zero (by have := h.2; omega)
  rw [none] at frames
  refine ⟨frame, ?_, fun name => ?_⟩
  · rw [ScopeStack.after, runAll_append]
    exact frames
  · rw [spoken, ScopeFrame.answer?_empty, Option.or_none]

end Innermost

def openFrames (history : List ScopeOperation) : List Nat :=
  (List.range history.length).filter (Opens history ·)

def Verdict (history : List ScopeOperation) (name : Text) (answer : Resolution) : Prop :=
  (∃ i j, Decides history name i j answer) ∨
    answer = .free ∧ ∀ i j other, ¬ Mentions history name i j other

section Verdicts

variable {history earlier own : List ScopeOperation} {kind : ScopeKind} {name : Text}
  {answer other : Resolution}

theorem openFrames_innermost (h : Balanced own) :
    openFrames (earlier ++ .push kind :: own) = openFrames earlier ++ [earlier.length] := by
  have first : ∀ i ∈ List.range earlier.length,
      decide (Opens (earlier ++ .push kind :: own) i) = decide (Opens earlier i) := by
    intro i mem
    have apart : i ≠ earlier.length := Nat.ne_of_lt (List.mem_range.mp mem)
    simp only [opens_innermost h, apart, false_or]
  have rest : ∀ i ∈ (List.range own.length).map (earlier.length + 1 + ·),
      ¬ decide (Opens (earlier ++ .push kind :: own) i) = true := by
    intro i mem
    obtain ⟨k, -, rfl⟩ := List.mem_map.mp mem
    rw [decide_eq_true_iff, opens_innermost h]
    rintro (same | opens)
    · omega
    · have := opens.lt_length
      omega
  have here : decide (Opens (earlier ++ .push kind :: own) earlier.length) = true :=
    decide_eq_true ((opens_innermost h).mpr (.inl rfl))
  have length : (earlier ++ .push kind :: own).length = earlier.length + 1 + own.length := by
    rw [List.length_append, List.length_cons]
    omega
  rw [openFrames, length, List.range_add, List.range_succ, List.filter_append, List.filter_append,
    List.filter_congr first, List.filter_eq_nil_iff.mpr rest, List.filter_singleton, here,
    List.append_nil, ← openFrames]
  rfl

theorem depth_after (history : List ScopeOperation) :
    (ScopeStack.after history).depth = (openFrames history).length := by
  induction history using openFrames_induction with
  | outside history empty none =>
    have closed : openFrames history = [] := by simp [openFrames, none]
    rw [ScopeStack.depth, empty, closed]
    rfl
  | inside earlier kind own inner ih =>
    obtain ⟨frame, frames, -⟩ := @after_innermost earlier own kind inner
    rw [ScopeStack.depth] at ih
    rw [ScopeStack.depth, frames, openFrames_innermost inner, List.length_append, ← ih]
    rfl

/-- Two deciding mentions are the same operation. -/
theorem Verdict.unique (h : Verdict history name answer) (k : Verdict history name other) :
    answer = other := by
  rcases h with ⟨i, j, decides⟩ | ⟨rfl, none⟩
  · rcases k with ⟨i', j', decides'⟩ | ⟨rfl, none⟩
    · have := decides.last i' j' other decides'.toMentions
      have := decides'.last i j answer decides.toMentions
      obtain rfl : i = i' := by omega
      obtain rfl : j = j' := by omega
      exact Option.some.inj (decides.answers.symm.trans decides'.answers)
    · exact absurd decides.toMentions (none i j answer)
  · rcases k with ⟨i', j', decides'⟩ | ⟨rfl, -⟩
    · exact absurd decides'.toMentions (none i' j' other)
    · rfl

/-- The last word spoken in the innermost frame decides. -/
theorem verdict_of_lastWord (h : Balanced own) (spoken : lastWord name own = some answer) :
    Verdict (earlier ++ .push kind :: own) name answer := by
  obtain ⟨k, word, last⟩ := wordAt_of_lastWord spoken
  refine .inl ⟨earlier.length, earlier.length + (k + 1),
    (mentions_innermost h).mpr (.inl ⟨rfl, k, rfl, word⟩), ?_⟩
  intro i j other mention
  rcases (mentions_innermost h).mp mention with ⟨rfl, k', rfl, word'⟩ | mention
  · refine .inr ⟨rfl, ?_⟩
    by_contra later
    rw [last k' (by omega)] at word'
    cases word'
  · exact .inl mention.opens.lt_length

/-- If nothing is said in the innermost frame, the history before it decides. -/
theorem verdict_of_silence (h : Balanced own) (silent : lastWord name own = none)
    (outer : Verdict earlier name answer) : Verdict (earlier ++ .push kind :: own) name answer := by
  have same (i j : Nat) (other : Resolution) :
      Mentions (earlier ++ .push kind :: own) name i j other ↔ Mentions earlier name i j other := by
    rw [mentions_innermost h]
    constructor
    · rintro (⟨-, k, -, word⟩ | mention)
      · rw [wordAt_of_lastWord_none silent k] at word
        cases word
      · exact mention
    · exact .inr
  rcases outer with ⟨i, j, decides⟩ | ⟨rfl, none⟩
  · refine .inl ⟨i, j, (same i j answer).mpr decides.toMentions, ?_⟩
    exact fun frame word other mention => decides.last frame word other ((same ..).mp mention)
  · exact .inr ⟨rfl, fun i j other mention => none i j other ((same ..).mp mention)⟩

theorem resolveIn_cons (name : Text) (frame : ScopeFrame) (outer : List ScopeFrame) :
    ScopeStack.resolveIn name (frame :: outer) =
      (frame.answer? name).getD (ScopeStack.resolveIn name outer) := by
  by_cases bound : name ∈ frame.bound
  · simp [ScopeStack.resolveIn, ScopeFrame.answer?, bound]
  · by_cases declared : name ∈ frame.globals
    · simp [ScopeStack.resolveIn, ScopeFrame.answer?, bound, declared]
    · simp [ScopeStack.resolveIn, ScopeFrame.answer?, bound, declared]

/-- Resolution gives the verdict of the history, frame by frame from the innermost one outwards. -/
theorem verdict_resolve (history : List ScopeOperation) (name : Text) :
    Verdict history name ((ScopeStack.after history).resolve name) := by
  induction history using openFrames_induction with
  | outside history empty none =>
    refine .inr ⟨?_, fun i j other mention => none i mention.opens⟩
    rw [ScopeStack.resolve, empty]
    rfl
  | inside earlier kind own inner ih =>
    obtain ⟨frame, frames, spoken⟩ := @after_innermost earlier own kind inner
    rw [ScopeStack.resolve, frames, resolveIn_cons, spoken]
    cases word : lastWord name own with
    | some answer => exact verdict_of_lastWord inner word
    | none => exact verdict_of_silence inner word ih

end Verdicts

section Disjoint

variable {scopes : ScopeStack}

theorem disjoint_bind {frame : ScopeFrame} (h : frame.bound.Disjoint frame.globals) (name : Text) :
    (frame.bind name).bound.Disjoint (frame.bind name).globals := by
  intro other bound declared
  obtain ⟨inside, apart⟩ := List.mem_filter.mp declared
  rcases List.mem_insert_iff.mp bound with rfl | bound
  · simp at apart
  · exact h bound inside

theorem disjoint_declareGlobal {frame : ScopeFrame} (h : frame.bound.Disjoint frame.globals)
    (name : Text) :
    (frame.declareGlobal name).bound.Disjoint (frame.declareGlobal name).globals := by
  intro other bound declared
  obtain ⟨inside, apart⟩ := List.mem_filter.mp bound
  rcases List.mem_insert_iff.mp declared with rfl | declared
  · simp at apart
  · exact h inside declared

theorem run_disjoint (h : ∀ frame ∈ scopes.frames, frame.bound.Disjoint frame.globals)
    (op : ScopeOperation) :
    ∀ frame ∈ (op.run scopes).frames, frame.bound.Disjoint frame.globals := by
  obtain ⟨frames⟩ := scopes
  cases op with
  | push kind => exact List.forall_mem_cons.mpr ⟨List.disjoint_nil_left _, h⟩
  | pop => exact fun frame mem => h frame (List.mem_of_mem_tail mem)
  | bind name =>
    cases frames with
    | nil => exact h
    | cons first rest =>
      obtain ⟨innermost, others⟩ := List.forall_mem_cons.mp h
      exact List.forall_mem_cons.mpr ⟨disjoint_bind innermost name, others⟩
  | declareGlobal name =>
    cases frames with
    | nil => exact h
    | cons first rest =>
      obtain ⟨innermost, others⟩ := List.forall_mem_cons.mp h
      exact List.forall_mem_cons.mpr ⟨disjoint_declareGlobal innermost name, others⟩

theorem after_disjoint (history : List ScopeOperation) :
    ∀ frame ∈ (ScopeStack.after history).frames, frame.bound.Disjoint frame.globals := by
  induction history using List.reverseRecOn with
  | nil => simp [ScopeStack.after, ScopeStack.runAll, ScopeStack.empty]
  | append_singleton history op ih =>
    rw [ScopeStack.after, runAll_concat]
    exact run_disjoint ih op

end Disjoint

end ScopeHistory

open ScopeHistory in
/-- A stack of scopes answers as its history does, whatever the operations were. In no frame a name
is both bound and declared global, and there are as many frames as were opened and are not closed
yet. A name is what the deciding mention makes of it: the last one in the innermost open frame that
has any, among those made while an open frame was the innermost one. Without a mention it is free. A
frame that is opened and closed again, with balanced operations in between, leaves no trace. -/
theorem scopes_follow_history (history : List ScopeOperation) :
    (∀ frame ∈ (ScopeStack.after history).frames, frame.bound.Disjoint frame.globals) ∧
    (ScopeStack.after history).depth = (openFrames history).length ∧
    (∀ name answer, (ScopeStack.after history).resolve name = answer ↔
      (∃ i j, Decides history name i j answer) ∨
        answer = .free ∧ ∀ i j other, ¬ Mentions history name i j other) ∧
    ∀ kind ops, Balanced ops →
      ScopeStack.after (history ++ .push kind :: (ops ++ [.pop])) = ScopeStack.after history := by
  refine ⟨after_disjoint history, depth_after history, fun name answer => ?_, ?_⟩
  · constructor
    · rintro rfl
      exact verdict_resolve history name
    · exact (verdict_resolve history name).unique
  · intro kind ops balanced
    rw [ScopeStack.after, runAll_append, runAll_frame balanced, ScopeStack.after]

/-- Words and a closing outside all frames, a name declared in a frame, and the same name bound in a
frame inside it that is closed again. -/
def shadowedName : List ScopeOperation :=
  [.bind ['x'], .pop, .push .function, .bind ['x'], .declareGlobal ['x'], .push .letBlock,
    .bind ['x'], .pop]

open ScopeHistory in
theorem shadowedName_decided :
    (ScopeStack.after shadowedName).resolve ['x'] = .global ∧
    (∃ i j, Decides shadowedName ['x'] i j .global) ∧ openFrames shadowedName = [2] ∧
    (ScopeStack.after shadowedName).depth = 1 ∧
    Balanced [.push .forLoop, .bind ['x'], .pop, .bind ['x']] ∧
    ScopeStack.after (shadowedName ++ .push .whileLoop ::
      ([.push .forLoop, .bind ['x'], .pop, .bind ['x']] ++ [.pop])) =
      ScopeStack.after shadowedName := by
  obtain ⟨-, depth, resolves, forgets⟩ := scopes_follow_history shadowedName
  have frames : openFrames shadowedName = [2] := by decide
  have balanced : Balanced [.push .forLoop, .bind ['x'], .pop, .bind ['x']] := by decide
  have decided := ((resolves ['x'] .global).mp (by decide)).resolve_right (by simp)
  rw [frames] at depth
  exact ⟨by decide, decided, frames, depth, balanced, forgets .whileLoop _ balanced⟩

end CellBindings
