import Mathlib.Data.List.Forall2
import Mathlib.Data.List.Nodup
import CellBindings.Command
import CellBindings.Proofs.FileWalks
import CellBindings.Proofs.WrittenNotebooks

/-!
Notebooks below a directory. The source files are taken in the order of a walk, and those that are
notebooks are kept in this order, unless one of the source files is no text. Then all notebooks are
read in the same order. So a run either writes one entry or summary for each notebook, or fails with
the first file that is no text or else with the first notebook that cannot be read.
-/

namespace CellBindings

open FileTree

/-- The text of a file is the one that its bytes encode. -/
theorem decode?_eq_some_iff {content : ByteArray} {text : Text} :
    decode? content = some text ↔ content = text.utf8Encode := by
  rw [decode?, String.fromUTF8?]
  split
  · next valid =>
    rw [Option.map_some, Option.some.injEq]
    constructor
    · rintro rfl
      rw [← String.toByteArray_ofList, String.ofList_toList]
      rfl
    · rintro rfl
      exact String.toList_ofList
  · next invalid =>
    constructor
    · intro none
      cases none
    · intro encoded
      exact absurd ⟨text, encoded⟩ invalid

/-- What has no text is not valid. -/
theorem decode?_eq_none_iff {content : ByteArray} :
    decode? content = none ↔ ¬ content.IsValidUTF8 := by
  constructor
  · rintro none ⟨text, encoded⟩
    rw [decode?_eq_some_iff.mpr encoded] at none
    cases none
  · intro invalid
    cases decoded : decode? content with
    | none => rfl
    | some text => exact absurd ⟨text, decode?_eq_some_iff.mp decoded⟩ invalid

/-- A traversal that may fail gives a result for each member, or fails where the first one fails. -/
theorem mapM_cases {α β ε : Type} (f : α → Except ε β) (xs : List α) :
    (∃ ys, List.Forall₂ (fun x y => f x = .ok y) xs ys ∧ xs.mapM f = .ok ys) ∨
      ∃ before bad after e, xs = before ++ bad :: after ∧ (∀ x ∈ before, ∃ y, f x = .ok y) ∧
        f bad = .error e ∧ xs.mapM f = .error e := by
  induction xs with
  | nil => exact .inl ⟨[], .nil, rfl⟩
  | cons x rest ih =>
    rw [List.mapM_cons]
    cases here : f x with
    | error e => exact .inr ⟨[], x, rest, e, rfl, by simp, here, rfl⟩
    | ok y =>
      rcases ih with ⟨ys, results, all⟩ | ⟨before, bad, after, e, rfl, good, failed, all⟩
      · rw [all]
        exact .inl ⟨y :: ys, .cons here results, rfl⟩
      · rw [all]
        have good := List.forall_mem_cons.mpr ⟨⟨y, here⟩, good⟩
        exact .inr ⟨x :: before, bad, after, e, rfl, good, failed, rfl⟩

namespace Command

def holdsNotebook (file : FileAt) : Bool := (decode? file.2).any Notebook.isNotebook

/-- All files are texts and the notebooks among them are kept, or the first that is no text is
named. -/
theorem selectNotebooks_cases (files : List FileAt) :
    (∀ file ∈ files, file.2.IsValidUTF8) ∧
        selectNotebooks files = .ok (files.filter holdsNotebook) ∨
      ∃ before bad after, files = before ++ bad :: after ∧
        (∀ file ∈ before, file.2.IsValidUTF8) ∧ ¬ bad.2.IsValidUTF8 ∧
        selectNotebooks files =
          .error (.unreadable (String.ofList bad.1) "stream did not contain valid UTF-8") := by
  induction files with
  | nil => exact .inl ⟨by simp, rfl⟩
  | cons file rest ih =>
    rw [selectNotebooks, fileText]
    cases decoded : decode? file.2 with
    | none => exact .inr ⟨[], file, rest, rfl, by simp, decode?_eq_none_iff.mp decoded, rfl⟩
    | some text =>
      have here : file.2.IsValidUTF8 := ⟨text, decode?_eq_some_iff.mp decoded⟩
      have kept : holdsNotebook file = Notebook.isNotebook text := by
        rw [holdsNotebook, decoded]
        rfl
      rcases ih with ⟨valid, all⟩ | ⟨before, bad, after, rfl, valid, invalid, all⟩
      · refine .inl ⟨List.forall_mem_cons.mpr ⟨here, valid⟩, ?_⟩
        rw [List.filter_cons, kept, all]
      · refine .inr ⟨file :: before, bad, after, rfl, ?_, invalid, ?_⟩
        · exact List.forall_mem_cons.mpr ⟨here, valid⟩
        · rw [all]

def ReportOf (settings : Settings) (file : FileAt) (report : NotebookReport) : Prop :=
  ∃ text notebook, decode? file.2 = some text ∧ Notebook.read text = .ok notebook ∧
    report = ⟨String.ofList file.1,
      (notebook.analyze settings.options).map (·.report text settings.includeLocals)⟩

/-- A file of which something is reported is a text that is read as a notebook. -/
theorem reportOf_notebookFile {settings : Settings} {file : FileAt} {report : NotebookReport}
    (ok : notebookFile settings file = .ok report) : ReportOf settings file report := by
  cases decoded : decode? file.2 with
  | none =>
    simp only [notebookFile, fileText, decoded] at ok
    cases ok
  | some text =>
    simp only [notebookFile, fileText, decoded, notebookReport] at ok
    cases read : Notebook.read text with
    | error error =>
      rw [read] at ok
      cases ok
    | ok notebook =>
      rw [read] at ok
      cases ok
      exact ⟨text, notebook, decoded, read, rfl⟩

/-- A text of which nothing is reported is named with what is wrong. -/
theorem unparsable_notebookFile {settings : Settings} {file : FileAt} {failure : Failure}
    (valid : file.2.IsValidUTF8) (failed : notebookFile settings file = .error failure) :
    ∃ text error, decode? file.2 = some text ∧ Notebook.read text = .error error ∧
      failure = .unparsable (String.ofList file.1) error.message := by
  obtain ⟨text, encoded⟩ := valid
  have decoded := decode?_eq_some_iff.mpr encoded
  simp only [notebookFile, fileText, decoded, notebookReport] at failed
  cases read : Notebook.read text with
  | error error =>
    rw [read] at failed
    cases failed
    exact ⟨text, error, decoded, read, rfl⟩
  | ok notebook =>
    rw [read] at failed
    cases failed

end Command

/-- The last name of a route has the extension of source files, with something before the dot. -/
def IsSource (route : Route) : Prop :=
  ∃ names stem, stem ≠ [] ∧ route = names ++ [stem ++ '.' :: Command.sourceExtension]

/-- The extension of a path is that of the last name of its route. -/
theorem hasExtension_pathBelow {path : Text} {route : Route} (names : ∀ name ∈ route, IsName name)
    (down : route ≠ []) :
    hasExtension Command.sourceExtension (pathBelow path route) = true ↔ IsSource route := by
  obtain ⟨front, name, rfl⟩ := route.eq_nil_or_concat.resolve_left down
  rw [List.concat_eq_append] at names ⊢
  have here := names name (List.mem_append_right _ List.mem_cons_self)
  rw [hasExtension, fileName_pathBelow here, Option.any_eq_true]
  constructor
  · rintro ⟨stem, cut, more⟩
    refine ⟨front, stem, by simpa using more, ?_⟩
    rw [← Text.eq_append_of_dropSuffix? cut]
  · rintro ⟨front', stem, more, same⟩
    obtain ⟨-, last⟩ := List.append_inj' same rfl
    rw [List.singleton_inj.mp last]
    exact ⟨stem, Text.dropSuffix?_append _ _, by simpa using more⟩

structure SourceList (tree : FileTree) (sources : List (Route × ByteArray)) : Prop where
  ordered : sources.Pairwise fun a b => Before a.1 b.1
  mem_iff : ∀ route content,
    (route, content) ∈ sources ↔ tree.Holds route (.file content) ∧ IsSource route

def located (path : Text) (file : Route × ByteArray) : Command.FileAt :=
  (pathBelow path file.1, file.2)

def sourceAt? (path : Text) : Route × FileTree → Option (Route × ByteArray)
  | (_, .directory _) => none
  | (route, .file content) =>
    if hasExtension Command.sourceExtension (pathBelow path route) then some (route, content)
    else none

theorem sourceFile?_pathBelow (path : Text) (place : Route × FileTree) :
    Command.sourceFile? (pathBelow path place.1, place.2) =
      (sourceAt? path place).map (located path) := by
  obtain ⟨route, tree⟩ := place
  cases tree with
  | directory entries => rfl
  | file content =>
    simp only [Command.sourceFile?, sourceAt?]
    split
    · rfl
    · rfl

theorem sourceAt?_eq_some {path : Text} {place : Route × FileTree} {file : Route × ByteArray} :
    sourceAt? path place = some file ↔ place = (file.1, .file file.2) ∧
      hasExtension Command.sourceExtension (pathBelow path file.1) = true := by
  obtain ⟨route, tree⟩ := place
  cases tree with
  | directory entries => simp [sourceAt?]
  | file content =>
    simp only [sourceAt?, Option.ite_none_right_eq_some]
    constructor
    · rintro ⟨extension, same⟩
      cases same
      exact ⟨rfl, extension⟩
    · rintro ⟨same, extension⟩
      cases same
      exact ⟨extension, rfl⟩

section Directories

variable {walk : Traversal} {path : Text} {entries : List (Text × FileTree)}
  {visited : List (Route × FileTree)} {sources : List (Route × ByteArray)}

/-- Collecting below a directory selects among its source files. -/
theorem exists_sourceList {files : Text → Except ReadError FileTree}
    (there : files path = .ok (.directory entries)) (proper : (FileTree.directory entries).Proper)
    (visits : Visits walk path (.directory entries) visited) :
    ∃ sources, SourceList (.directory entries) sources ∧
      Command.collectAlong walk files path =
        Command.selectNotebooks (sources.map (located path)) := by
  refine ⟨visited.filterMap (sourceAt? path), ⟨?_, ?_⟩, ?_⟩
  · refine visits.ordered.filterMap _ ?_
    intro place other before file here file' there
    obtain ⟨rfl, -⟩ := sourceAt?_eq_some.mp here
    obtain ⟨rfl, -⟩ := sourceAt?_eq_some.mp there
    exact before
  · intro route content
    have extended (holds : (FileTree.directory entries).Holds route (.file content)) :=
      @hasExtension_pathBelow path route (holds.names proper) holds.ne_nil
    rw [List.mem_filterMap]
    constructor
    · rintro ⟨place, mem, found⟩
      obtain ⟨rfl, extension⟩ := sourceAt?_eq_some.mp found
      have holds := (visits.all _ _).mp mem
      exact ⟨holds, (extended holds).mp extension⟩
    · rintro ⟨holds, source⟩
      refine ⟨_, (visits.all _ _).mpr holds, sourceAt?_eq_some.mpr ⟨rfl, ?_⟩⟩
      exact (extended holds).mpr source
  · have listed : (visited.map fun place => (pathBelow path place.1, place.2)).filterMap
        Command.sourceFile? = (visited.filterMap (sourceAt? path)).map (located path) := by
      rw [List.filterMap_map, List.map_filterMap]
      exact List.filterMap_congr fun place _ => sourceFile?_pathBelow path place
    rw [Command.collectAlong, there, ← listed, ← visits.paths]

/-- Different files have different paths. -/
theorem SourceList.paths_nodup (listed : SourceList (.directory entries) sources)
    (proper : (FileTree.directory entries).Proper) (path : Text) :
    ((sources.map (located path)).map (·.1)).Nodup := by
  rw [List.map_map, List.nodup_iff_pairwise_ne, List.pairwise_map]
  refine listed.ordered.imp_of_mem ?_
  rintro ⟨route, content⟩ ⟨other, content'⟩ mem mem' before same
  obtain ⟨holds, -⟩ := (listed.mem_iff _ _).mp mem
  obtain ⟨holds', -⟩ := (listed.mem_iff _ _).mp mem'
  exact before.ne (pathBelow_injective (holds.names proper) (holds'.names proper) holds.ne_nil
    holds'.ne_nil same)

end Directories

namespace Command

def EntryOf (report : NotebookReport) (entry : JsonValue) : Prop :=
  ∃ cells, entry = .object [("file", .string report.file), ("cells", .array cells)] ∧
    List.Forall₂ (fun cell item => ∃ outcome, item = .object (("id", .ofText cell.id) ::
      ("offset", .number cell.offset) :: ("line", .number cell.line) :: outcome)) report.cells cells

def SummaryOf (report : NotebookReport) (summary : String) : Prop :=
  ∃ cells, summary = report.file ++ "\n" ++ String.join cells ∧
    List.Forall₂ (fun cell part => ∃ outcome,
      part = s!"  {String.ofList cell.id} (line {cell.line})" ++ outcome) report.cells cells

/-- One response with an entry for each report, or the summaries one behind the other. -/
inductive Written (reports : List NotebookReport) : OutputFormat → String → Prop where
  | json {entries : List JsonValue} : List.Forall₂ EntryOf reports entries →
      Written reports .json (JsonValue.renderLine .indented (.object [("status", .string "ok"),
        ("schema_version", .string "1"), ("notebooks", .array entries)]))
  | text {summaries : List String} : List.Forall₂ SummaryOf reports summaries →
      Written reports .text (String.join summaries)

theorem entryOf_toJson (report : NotebookReport) : EntryOf report report.toJson := by
  refine ⟨report.cells.map CellReport.toJson, rfl, List.forall₂_map_right_iff.mpr ?_⟩
  exact List.forall₂_same.mpr fun cell _ => ⟨_, rfl⟩

theorem summaryOf_notebookSummary (report : NotebookReport) :
    SummaryOf report (notebookSummary report) := by
  refine ⟨report.cells.map cellSummary, rfl, List.forall₂_map_right_iff.mpr ?_⟩
  refine List.forall₂_same.mpr fun cell _ => ?_
  rw [cellSummary]
  split
  · exact ⟨_, String.append_assoc⟩
  · exact ⟨_, String.append_assoc.trans String.append_assoc⟩

theorem written_notebooksOutput (format : OutputFormat) (reports : List NotebookReport) :
    Written reports format (notebooksOutput format reports) := by
  cases format with
  | json =>
    refine .json (List.forall₂_map_right_iff.mpr ?_)
    exact List.forall₂_same.mpr fun report _ => entryOf_toJson report
  | text =>
    refine .text (List.forall₂_map_right_iff.mpr ?_)
    exact List.forall₂_same.mpr fun report _ => summaryOf_notebookSummary report

section Runs

variable {walk : Traversal} {settings : Settings} {files : Text → Except ReadError FileTree}
  {path : Text} {found : List FileAt} {failure : Failure}

theorem notebooksAlong_of_error (failed : collectAlong walk files path = .error failure) :
    notebooksAlong walk settings files path = .error failure := by
  rw [notebooksAlong, failed]
  rfl

/-- Collected texts have one report each, in their order, or the first that cannot be read is named
and nothing is written. -/
theorem notebooksAlong_cases (settings : Settings)
    (collected : collectAlong walk files path = .ok found)
    (valid : ∀ file ∈ found, file.2.IsValidUTF8) :
    (∃ reports output, List.Forall₂ (ReportOf settings) found reports ∧
        Written reports settings.format output ∧
        notebooksAlong walk settings files path = .ok output) ∨
      ∃ before bad after text error, found = before ++ bad :: after ∧
        (∀ file ∈ before, ∃ report, ReportOf settings file report) ∧
        decode? bad.2 = some text ∧ Notebook.read text = .error error ∧
        notebooksAlong walk settings files path =
          .error (.unparsable (String.ofList bad.1) error.message) := by
  have run : notebooksAlong walk settings files path =
      (found.mapM (notebookFile settings)).map (notebooksOutput settings.format) := by
    rw [notebooksAlong, collected]
    rfl
  rcases mapM_cases (notebookFile settings) found with
    ⟨reports, results, all⟩ | ⟨before, bad, after, failure, rfl, good, failed, all⟩
  · refine .inl ⟨reports, _, results.imp fun _ _ => reportOf_notebookFile,
      written_notebooksOutput settings.format reports, ?_⟩
    rw [run, all]
    rfl
  · have mem : bad ∈ before ++ bad :: after := List.mem_append_right _ List.mem_cons_self
    obtain ⟨text, error, decoded, read, rfl⟩ := unparsable_notebookFile (valid bad mem) failed
    refine .inr ⟨before, bad, after, text, error, rfl, ?_, decoded, read, ?_⟩
    · intro file earlier
      obtain ⟨report, ok⟩ := good file earlier
      exact ⟨report, reportOf_notebookFile ok⟩
    · rw [run, all]
      rfl

end Runs

end Command

/-- Collecting notebooks is exact. Below a path that leads to a directory there are some source
files, which a walk meets in order; in a tree, the path at which the walk puts each leads to it. If
all of them are texts, then those that are notebooks are collected in this order, at different
paths. A run writes one response with an entry for each of them in the same order, or a summary of
each, or else it writes nothing and names the first that cannot be read. If one of the source files
is no text, both name the first of these. -/
theorem notebooks_collected (walk : Traversal) (files : Text → Except ReadError FileTree)
    (path : Text) (entries : List (Text × FileTree)) (visited : List (Route × FileTree))
    (settings : Settings) (there : files path = .ok (.directory entries))
    (proper : (FileTree.directory entries).Proper)
    (visits : Visits walk path (.directory entries) visited) :
    ∃ sources, SourceList (.directory entries) sources ∧
      (∀ root : FileTree, root.Proper → files = root.find →
        ∀ file ∈ sources, files (pathBelow path file.1) = .ok (.file file.2)) ∧
      ((∀ file ∈ sources, file.2.IsValidUTF8) →
        let found := (sources.map (located path)).filter Command.holdsNotebook
        Command.collectAlong walk files path = .ok found ∧ (found.map (·.1)).Nodup ∧
        ((∃ reports output, List.Forall₂ (Command.ReportOf settings) found reports ∧
            Command.Written reports settings.format output ∧
            Command.notebooksAlong walk settings files path = .ok output) ∨
          ∃ before bad after text error, found = before ++ bad :: after ∧
            (∀ file ∈ before, ∃ report, Command.ReportOf settings file report) ∧
            decode? bad.2 = some text ∧ Notebook.read text = .error error ∧
            Command.notebooksAlong walk settings files path =
              .error (.unparsable (String.ofList bad.1) error.message))) ∧
      (¬ (∀ file ∈ sources, file.2.IsValidUTF8) →
        ∃ before bad after, sources = before ++ bad :: after ∧
          (∀ file ∈ before, file.2.IsValidUTF8) ∧ ¬ bad.2.IsValidUTF8 ∧
          let failure := Failure.unreadable (String.ofList (pathBelow path bad.1))
            "stream did not contain valid UTF-8"
          Command.collectAlong walk files path = .error failure ∧
            Command.notebooksAlong walk settings files path = .error failure) := by
  obtain ⟨sources, listed, collect⟩ := exists_sourceList there proper visits
  refine ⟨sources, listed, ?_, ?_⟩
  · rintro root whole rfl ⟨route, content⟩ mem
    exact ((listed.mem_iff route content).mp mem).1.find whole there
  rcases Command.selectNotebooks_cases (sources.map (located path)) with
    ⟨valid, all⟩ | ⟨before, bad, after, split, valid, invalid, all⟩
  · rw [← collect] at all
    refine ⟨fun _ => ⟨all, ?_, ?_⟩, fun none => absurd (List.forall_mem_map.mp valid) none⟩
    · exact (listed.paths_nodup proper path).sublist (List.filter_sublist.map _)
    · refine Command.notebooksAlong_cases settings all ?_
      exact fun file mem => valid file (List.mem_of_mem_filter mem)
  · obtain ⟨front, rest, rfl, rfl, tail⟩ := List.map_eq_append_iff.mp split
    obtain ⟨file, behind, rfl, rfl, rfl⟩ := List.map_eq_cons_iff.mp tail
    rw [← collect] at all
    have mem : file ∈ front ++ file :: behind := List.mem_append_right _ List.mem_cons_self
    refine ⟨fun every => absurd (every file mem) invalid, fun _ => ?_⟩
    exact ⟨front, file, behind, rfl, fun earlier mem => valid _ (List.mem_map_of_mem mem), invalid,
      all, Command.notebooksAlong_of_error all⟩

/-- A notebook without cells in a directory that is named as source files are, beside a text that is
no notebook. The program's own walk collects the notebook, and its summary is written. -/
theorem nestedNotebook_collected :
    let notebook := Notebook.header.utf8Encode
    let other := List.utf8Encode ['1']
    let root := ((FileTree.directory []).insert [['d'], ['x', '.', 'j', 'l'], ['b', '.', 'j', 'l']]
      (.file notebook)).insert [['d'], ['a', '.', 'j', 'l']] (.file other)
    let entries := [(['x', '.', 'j', 'l'], .directory [(['b', '.', 'j', 'l'], .file notebook)]),
      (['a', '.', 'j', 'l'], .file other)]
    let path := ['/', 'd', '/']
    let file : Command.FileAt :=
      (['/', 'd', '/', 'x', '.', 'j', 'l', '/', 'b', '.', 'j', 'l'], notebook)
    root.find path = .ok (.directory entries) ∧
      Visits FileTree.walk path (.directory entries) (routed (.directory entries)) ∧
      Command.collectNotebooks root.find path = .ok [file] ∧
      Command.notebooksAt ⟨.text, true, false⟩ root.find path =
        .ok (String.ofList file.1 ++ "\n") := by
  intro notebook other root entries path file
  have empty : (FileTree.directory []).Proper := .directory .nil (by simp) (by simp)
  have names : ∀ name ∈ [['d'], ['x', '.', 'j', 'l'], ['b', '.', 'j', 'l'], ['a', '.', 'j', 'l']],
      IsName name := by
    intro name mem
    simp only [List.mem_cons, List.not_mem_nil, or_false] at mem
    rcases mem with rfl | rfl | rfl | rfl <;> constructor <;> simp
  have whole : root.Proper := by
    refine (empty.insert ?_ (.file notebook)).insert ?_ (.file other)
    · exact fun name mem => names name (by simp at mem ⊢; tauto)
    · exact fun name mem => names name (by simp at mem ⊢; tauto)
  have there : root.find path = .ok (.directory entries) := rfl
  have proper := whole.find there
  have visits := proper.visits_walk path
  obtain ⟨sources, listed, -, collected, -⟩ :=
    notebooks_collected FileTree.walk root.find path entries _ ⟨.text, true, false⟩ there proper
      visits
  have text : decode? notebook = some Notebook.header := decode?_eq_some_iff.mpr rfl
  have text' : decode? other = some ['1'] := decode?_eq_some_iff.mpr rfl
  have members : ∀ source ∈ sources, located path source = file ∨ source.2 = other := by
    rintro ⟨route, content⟩ mem
    cases ((listed.mem_iff _ _).mp mem).1 with
    | entry first below =>
      rcases List.mem_cons.mp first with same | second
      · cases same
        cases below with
        | entry inside last =>
          cases List.mem_singleton.mp inside
          cases last
          exact .inl rfl
      · cases List.mem_singleton.mp second
        cases below
        exact .inr rfl
  have valid : ∀ source ∈ sources, source.2.IsValidUTF8 := by
    intro source mem
    rcases members source mem with same | same
    · exact ⟨_, congrArg Prod.snd same⟩
    · exact ⟨_, same⟩
  obtain ⟨collected, distinct, written⟩ := collected valid
  have single : (sources.map (located path)).filter Command.holdsNotebook = [file] := by
    have once := List.Nodup.of_map _ distinct
    refine List.perm_singleton.mp ((List.perm_ext_iff_of_nodup once (by simp)).mpr fun found => ?_)
    rw [List.mem_filter, List.mem_singleton]
    constructor
    · rintro ⟨mem, holds⟩
      obtain ⟨source, there, rfl⟩ := List.mem_map.mp mem
      rcases members source there with same | same
      · exact same
      · have : (located path source).2 = other := same
        rw [Command.holdsNotebook, this, text'] at holds
        exact absurd holds (by decide)
    · rintro rfl
      have mem := (listed.mem_iff _ notebook).mpr
        ⟨.entry List.mem_cons_self (.entry List.mem_cons_self .here), [['x', '.', 'j', 'l']], ['b'],
          by simp, rfl⟩
      refine ⟨List.mem_map_of_mem mem, ?_⟩
      rw [Command.holdsNotebook, text]
      decide
  rw [single] at collected written
  refine ⟨there, visits, collected, ?_⟩
  have read : Notebook.read Notebook.header = .ok ⟨[]⟩ := rfl
  rcases written with ⟨reports, output, results, written, ran⟩ |
    ⟨before, bad, after, content, error, split, -, decoded, failed, -⟩
  · obtain ⟨report, _, ⟨content, found, decoded, parsed, rfl⟩, none, rfl⟩ :=
      List.forall₂_cons_left_iff.mp results
    cases Option.some.inj (text.symm.trans decoded)
    cases Except.ok.inj (read.symm.trans parsed)
    cases List.forall₂_nil_left_iff.mp none
    cases written with
    | text summaries =>
      obtain ⟨summary, _, ⟨cells, rfl, parts⟩, none, rfl⟩ := List.forall₂_cons_left_iff.mp summaries
      cases List.forall₂_nil_left_iff.mp none
      cases List.forall₂_nil_left_iff.mp parts
      exact ran
  · have mem : bad ∈ [file] := split ▸ List.mem_append_right _ List.mem_cons_self
    cases List.mem_singleton.mp mem
    cases Option.some.inj (text.symm.trans decoded)
    cases read.symm.trans failed

end CellBindings
