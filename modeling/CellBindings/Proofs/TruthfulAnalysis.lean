import CellBindings.Cell
import CellBindings.Proofs.EffectPlaces
import CellBindings.Proofs.ScopeDiscipline

/-!
The analysis of a cell tells the truth. Carrying out the effects of a tree cannot fail, since every
span they name is that of a node and has a text. What is recorded is that text, but for macros,
which are recorded with an at sign before their name; the wildcard is never recorded.
-/

namespace CellBindings

/-- The span lies in the text, between characters, and the name is what it spells there. -/
structure Text.Names (text : Text) (span : Span) (name : Text) : Prop where
  ordered : span.start ≤ span.stop
  within : span.stop ≤ text.byteSize
  boundaries : text.IsBoundary span.start ∧ text.IsBoundary span.stop
  slice : text.slice? span = some name

theorem Text.eq_nil_of_byteSize {text : Text} (h : text.byteSize = 0) : text = [] := by
  cases text with
  | nil => rfl
  | cons c cs =>
    have := Text.byteSize_pos (List.cons_ne_nil c cs)
    omega

/-- A span between boundaries in order names a piece of the text. -/
theorem Text.names_of_boundaries {text : Text} {span : Span} (ordered : span.start ≤ span.stop)
    (first : text.IsBoundary span.start) (last : text.IsBoundary span.stop) :
    ∃ name, text.Names span name := by
  obtain ⟨⟨front, back⟩, hf⟩ := Option.isSome_iff_exists.mp first
  obtain ⟨⟨front', back'⟩, hl⟩ := Option.isSome_iff_exists.mp last
  obtain ⟨same, size⟩ := Text.eq_of_splitAt? hf
  obtain ⟨same', size'⟩ := Text.eq_of_splitAt? hl
  have piece : ∃ name, back = name ++ back' ∧ span.stop - span.start = name.byteSize := by
    rcases List.append_eq_append_iff.mp (same.symm.trans same') with
      ⟨name, rfl, rfl⟩ | ⟨surplus, rfl, rfl⟩
    · refine ⟨name, rfl, ?_⟩
      simp only [Text.byteSize_append] at size'
      omega
    · -- the second boundary is not before the first, so nothing lies between them
      simp only [Text.byteSize_append] at size
      obtain rfl : surplus = [] := Text.eq_nil_of_byteSize (by omega)
      exact ⟨[], rfl, by simp only [Text.byteSize_nil]; omega⟩
  obtain ⟨name, hb, hn⟩ := piece
  refine ⟨name, ordered, last.le_byteSize, ⟨first, last⟩, ?_⟩
  rw [Text.slice?, if_neg (by omega), hf]
  simp only [hn, hb, Text.splitAt?_append, Option.map_some]

/-- What a span names stands in the text between two parts. -/
theorem Text.Names.cut {text name : Text} {span : Span} (h : text.Names span name) :
    ∃ front back, text = front ++ (name ++ back) ∧ front.byteSize = span.start ∧
      front.byteSize + name.byteSize = span.stop := by
  have slice := h.slice
  have ordered := h.ordered
  rw [Text.slice?, if_neg (by omega)] at slice
  split at slice
  · cases slice
  · next front rest first =>
    obtain ⟨⟨piece, back⟩, second, rfl⟩ := Option.map_eq_some_iff.mp slice
    obtain ⟨rfl, start⟩ := Text.eq_of_splitAt? first
    obtain ⟨rfl, size⟩ := Text.eq_of_splitAt? second
    exact ⟨front, back, rfl, start, by dsimp only; omega⟩

structure Truthful (text : Text) (macros : Span → Prop) (a : Analysis) : Prop where
  usages : ∀ o ∈ a.usages, text.Names o.span o.name ∧ o.name ≠ wildcard
  locals : ∀ o ∈ a.locals,
    (text.Names o.span o.name ∨
      macros o.span ∧ ∃ name, o.name = '@' :: name ∧ text.Names o.span name) ∧ o.name ≠ wildcard
  definitions : ∀ entry ∈ a.definitions,
    (∃ name, entry.1 = entry.2.kind.key name ∧ text.Names entry.2.span name) ∧ entry.1 ≠ wildcard

section Records

variable {text name : Text} {macros : Span → Prop} {span : Span} {kind : DefinitionKind}
  {a : Analysis} {e : Explorer}

namespace Truthful

theorem addUsage (h : Truthful text macros a) (hn : text.Names span name) (hw : name ≠ wildcard) :
    Truthful text macros (a.addUsage name span) := by
  refine ⟨fun o ho => ?_, h.locals, h.definitions⟩
  rcases List.mem_append.mp ho with ho | ho
  · exact h.usages o ho
  · obtain rfl := List.mem_singleton.mp ho
    exact ⟨hn, hw⟩

theorem addLocal {key : Text} (h : Truthful text macros a)
    (hn : text.Names span key ∨ macros span ∧ ∃ name, key = '@' :: name ∧ text.Names span name)
    (hw : key ≠ wildcard) : Truthful text macros (a.addLocal key span) := by
  refine ⟨h.usages, fun o ho => ?_, h.definitions⟩
  rcases List.mem_append.mp ho with ho | ho
  · exact h.locals o ho
  · obtain rfl := List.mem_singleton.mp ho
    exact ⟨hn, hw⟩

theorem define (h : Truthful text macros a) (hn : text.Names span name)
    (hw : kind.key name ≠ wildcard) :
    Truthful text macros (a.define (kind.key name) kind span) := by
  refine ⟨h.usages, h.locals, fun entry he => ?_⟩
  rcases mem_insert he with rfl | he
  · exact ⟨⟨name, rfl, hn⟩, hw⟩
  · exact h.definitions entry he

end Truthful

theorem DefinitionKind.key_of_ne (h : kind ≠ .macroName) (name : Text) : kind.key name = name :=
  if_neg h

theorem use_truthful (h : Truthful text macros e.analysis) (hn : text.Names span name) :
    Truthful text macros (e.use name span).analysis := by
  unfold Explorer.use
  split
  · exact h
  · next hw => exact h.addUsage hn hw

theorem bind_truthful (h : Truthful text macros e.analysis) (hn : text.Names span name) :
    Truthful text macros (e.bind name span).analysis := by
  unfold Explorer.bind
  split
  · exact h
  · next hw => exact h.addLocal (.inl hn) hw

theorem define_truthful (h : Truthful text macros e.analysis) (hn : text.Names span name)
    (hk : kind ≠ .macroName) : Truthful text macros (e.define name kind span).analysis := by
  unfold Explorer.define
  split
  · exact h
  · next hw =>
    rw [← DefinitionKind.key_of_ne hk name] at hw ⊢
    exact h.define hn hw

theorem assign_truthful (h : Truthful text macros e.analysis) (hn : text.Names span name)
    (hm : kind = .macroName → macros span) :
    Truthful text macros (e.assign (kind.key name) kind span).analysis := by
  have spelled : text.Names span (kind.key name) ∨
      macros span ∧ ∃ n, kind.key name = '@' :: n ∧ text.Names span n := by
    by_cases hk : kind = .macroName
    · exact .inr ⟨hm hk, name, if_pos hk, hn⟩
    · rw [DefinitionKind.key_of_ne hk]
      exact .inl hn
  unfold Explorer.assign
  split
  · exact h
  · next hw =>
    split
    · exact h
    · exact h.define hn hw
    · split
      · exact h.addLocal spelled hw
      · exact h.define hn hw

end Records

def Effect.Runs (text : Text) (macros : Span → Prop) (effect : Effect) : Prop :=
  ∀ e : Explorer, Truthful text macros e.analysis →
    ∃ next, effect.run text e = (.ok (), next) ∧ Truthful text macros next.analysis

section Runs

variable {text : Text} {spans macros : Span → Prop} {span : Span} {effect : Effect}
  {effects : List Effect}

theorem withText_truthful {e : Explorer} {next : Text → Explorer}
    (found : ∃ name, text.Names span name)
    (h : ∀ name, text.Names span name → Truthful text macros (next name).analysis) :
    ∃ last, Effect.withText text span e next = (.ok (), last) ∧
      Truthful text macros last.analysis := by
  obtain ⟨name, hn⟩ := found
  exact ⟨next name, by simp [Effect.withText, hn.slice], h name hn⟩

theorem runAll_truthful (h : ∀ effect ∈ effects, effect.Runs text macros) (e : Explorer)
    (he : Truthful text macros e.analysis) :
    ∃ next, Effect.runAll text effects e = (.ok (), next) ∧ Truthful text macros next.analysis := by
  induction effects generalizing e with
  | nil => exact ⟨e, by rw [Effect.runAll], he⟩
  | cons effect effects ih =>
    obtain ⟨mid, hm, truthful⟩ := h effect (by simp) e he
    obtain ⟨next, hn, last⟩ := ih (fun other ho => h other (by simp [ho])) mid truthful
    exact ⟨next, by simp [Effect.runAll, hm, hn], last⟩

/-- One case for each effect; the effects of a frame follow one another inside it. -/
theorem Effect.Stems.runs (h : effect.Stems spans macros)
    (named : ∀ span, spans span → ∃ name, text.Names span name) : effect.Runs text macros := by
  induction h with
  | use hs =>
    intro e he
    rw [Effect.run]
    exact withText_truthful (named _ hs) fun _ hn => use_truthful he hn
  | assign hs hm =>
    intro e he
    rw [Effect.run]
    exact withText_truthful (named _ hs) fun _ hn => assign_truthful he hn hm
  | bind hs =>
    intro e he
    rw [Effect.run]
    exact withText_truthful (named _ hs) fun _ hn => bind_truthful he hn
  | define hk hs =>
    intro e he
    rw [Effect.run]
    refine withText_truthful (named _ hs) fun _ hn => define_truthful he hn ?_
    rintro rfl
    simp [DefinitionKind.IsDeclared] at hk
  | declareGlobal hs =>
    intro e he
    rw [Effect.run]
    exact withText_truthful (named _ hs) fun _ _ => he
  | @update operator target ho ht =>
    intro e he
    obtain ⟨spelling, hn⟩ := named operator ho
    rw [Effect.run, hn.slice]
    cases target with
    | none => exact ⟨e, rfl, he⟩
    | some span =>
      dsimp only
      split
      · exact ⟨e, rfl, he⟩
      · refine withText_truthful (named span (ht span rfl)) fun name hn => ?_
        apply @assign_truthful _ name _ _ .variableName _ he hn
        intro isMacro
        cases isMacro
  | inFrame _ ih =>
    intro e he
    obtain ⟨inner, hi, truthful⟩ := runAll_truthful ih { e with scopes := e.scopes.push _ } he
    rw [Effect.run, hi]
    exact ⟨_, rfl, truthful⟩

end Runs

theorem truthful_empty (text : Text) (macros : Span → Prop) : Truthful text macros .empty :=
  ⟨by simp [Analysis.empty], by simp [Analysis.empty], by simp [Analysis.empty]⟩

/-- Exploring the tree of a text succeeds, and what it records is true. -/
theorem explore_truthful (text : Text) (enclosing : ScopeStack) (quoted : Bool) :
    ∃ analysis, explore text enclosing quoted (parse text) = .ok analysis ∧
      Truthful text (parse text).NamesMacro analysis := by
  have named : ∀ node ∈ (parse text).preorder, ∃ name, text.Names node.span name := by
    intro node hn
    have nested := (parse_nested text hn).1
    exact Text.names_of_boundaries nested.ordered nested.edges.1 nested.edges.2
  have stems := @effects_stem (fun span => ∃ name, text.Names span name) (parse text).NamesMacro
    (parse text) named (fun _ h => h) quoted
  obtain ⟨next, hr, truthful⟩ := runAll_truthful
    (fun effect he => (stems effect he).runs fun _ h => h) ⟨enclosing, .empty⟩
    (truthful_empty text _)
  obtain ⟨items, _, _, root⟩ := parse_listing text
  have fits : ¬ text.byteSize < (parse text).span.stop := by simp [root]
  exact ⟨next.analysis, by simp [explore, fits, hr], truthful⟩

theorem analyzeCell_truthful (text : Text) (options : Options) :
    ∃ analysis, analyzeCell text options = .ok analysis ∧
      Truthful text (parse text).NamesMacro analysis := by
  obtain ⟨full, he, truthful⟩ := explore_truthful text options.enclosing options.quoted
  unfold analyzeCell
  rw [he]
  refine ⟨_, rfl, ?_⟩
  split
  · exact truthful
  · exact ⟨truthful.usages, by simp, truthful.definitions⟩

/-- The analysis of a cell succeeds for every text and all options. Every usage is spelled by its
span, and so is every definition, but for the at sign of a macro. A local is spelled by its span
unless it is the name of a macro, which then has the at sign too. The wildcard is not recorded. -/
theorem analysis_truthful (text : Text) (options : Options) :
    parse? text = some (parse text) ∧
    ∃ analysis, analyzeCell text options = .ok analysis ∧
      (∀ o ∈ analysis.usages, text.Names o.span o.name) ∧
      (∀ o ∈ analysis.locals, text.Names o.span o.name ∨
        (parse text).NamesMacro o.span ∧ ∃ name, o.name = '@' :: name ∧ text.Names o.span name) ∧
      (∀ entry ∈ analysis.definitions,
        (entry.2.kind ≠ .macroName → text.Names entry.2.span entry.1) ∧
        (entry.2.kind = .macroName →
          ∃ name, entry.1 = '@' :: name ∧ text.Names entry.2.span name)) ∧
      (∀ o ∈ analysis.usages ++ analysis.locals, o.name ≠ ['_']) ∧
      ∀ entry ∈ analysis.definitions, entry.1 ≠ ['_'] := by
  obtain ⟨_, _, found, _⟩ := parse_listing text
  obtain ⟨analysis, ha, usages, locals, definitions⟩ := analyzeCell_truthful text options
  refine ⟨found, analysis, ha, fun o ho => (usages o ho).1, fun o ho => (locals o ho).1,
    fun entry he => ?_, fun o ho => ?_, fun entry he => (definitions entry he).2⟩
  · obtain ⟨name, key, names⟩ := (definitions entry he).1
    constructor
    · intro hk
      rw [key, DefinitionKind.key_of_ne hk]
      exact names
    · intro hk
      exact ⟨name, by rw [key, hk]; rfl, names⟩
  · rcases List.mem_append.mp ho with ho | ho
    · exact (usages o ho).2
    · exact (locals o ho).2

def nestedMacro : Text :=
  ['l', 'e', 't', '\n', 'm', 'a', 'c', 'r', 'o', ' ', 'm', '(', ')', ' ', 'e', 'n', 'd', '\n',
    'e', 'n', 'd']

/-- A local that its span does not spell: the macro is recorded with the at sign. -/
theorem nested_macro_not_spelled :
    ∃ analysis, analyzeCell nestedMacro .standard = .ok analysis ∧
      ∃ o ∈ analysis.locals, ¬ nestedMacro.Names o.span o.name := by
  have answer : (analyzeCell nestedMacro .standard).toOption =
      some ⟨[], [], [⟨['@', 'm'], ⟨10, 11⟩⟩]⟩ := by decide +kernel
  cases ha : analyzeCell nestedMacro .standard with
  | error e =>
    rw [ha] at answer
    cases answer
  | ok analysis =>
    rw [ha] at answer
    cases answer
    refine ⟨_, rfl, ⟨['@', 'm'], ⟨10, 11⟩⟩, List.mem_singleton.mpr rfl, fun names => ?_⟩
    have spelled : nestedMacro.slice? ⟨10, 11⟩ = some ['m'] := by decide
    have wrong := spelled.symm.trans names.slice
    cases wrong

end CellBindings
