import CellBindings.Failure
import CellBindings.Text.Order

/-!
File trees: regular files and directories, without links. A path is read part by part from a
directory: the empty part and `.` stay, `..` goes up, and a part after a file leads nowhere. Walking
a tree lists all of it depth first, the entries of each directory in the order of their names.
-/

namespace CellBindings

inductive FileTree where
  | file (content : ByteArray)
  | directory (entries : List (Text × FileTree))

namespace FileTree

def decode? (content : ByteArray) : Option Text := (String.fromUTF8? content).map String.toList

/-- The text of what stands at a path. -/
def text : FileTree → Except ReadError Text
  | .directory _ => .error .isDirectory
  | .file content =>
    match decode? content with
    | none => .error .notText
    | some text => .ok text

/-- Follows the parts of a path. The directories passed on the way lead back up, the innermost first;
nothing is above the outermost. -/
def follow (above : List FileTree) (here : FileTree) : List Text → Except ReadError FileTree
  | [] => .ok here
  | part :: rest =>
    match here with
    | .file _ => .error .notDirectory
    | .directory entries =>
      if part = [] ∨ part = ['.'] then follow above here rest
      else if part = ['.', '.'] then
        match above with
        | [] => follow [] here rest
        | outer :: others => follow others outer rest
      else
        match entries.lookup part with
        | none => .error .notFound
        | some inner => follow (here :: above) inner rest

/-- What stands at a path. Paths start at the root, with a slash before them and without. -/
def find (root : FileTree) (path : Text) : Except ReadError FileTree :=
  if path.isEmpty then .error .notFound else follow [] root (path.splitOn '/')

/-- Puts a tree in the place of its name, at the end if the name is new. -/
def setEntry (name : Text) (tree : FileTree) :
    List (Text × FileTree) → List (Text × FileTree)
  | [] => [(name, tree)]
  | (key, old) :: rest =>
    if key = name then (key, tree) :: rest else (key, old) :: setEntry name tree rest

/-- Puts a tree at the end of a path and makes the directories on the way. -/
def insert (root : FileTree) (parts : List Text) (tree : FileTree) : FileTree :=
  match parts with
  | [] => tree
  | part :: rest =>
    let entries := match root with
      | .file _ => []
      | .directory entries => entries
    let inner := (entries.lookup part).getD (.directory [])
    .directory (setEntry part (insert inner rest tree) entries)

/-- A slash at the end of the outer path is not doubled. -/
def join (path name : Text) : Text :=
  if path.getLast? = some '/' then path ++ name else path ++ '/' :: name

/-- A way to list what a tree holds that stands at a path, the tree among it. -/
abbrev Traversal := Text → FileTree → List (Text × FileTree)

mutual

/-- Lists a directory before what stands in it. -/
def walk (path : Text) : FileTree → List (Text × FileTree)
  | .file content => [(path, .file content)]
  | .directory entries =>
    (path, .directory entries) :: (Text.sortByName (walkEntries path entries)).flatMap (·.2)

def walkEntries (path : Text) : List (Text × FileTree) → List (Text × List (Text × FileTree))
  | [] => []
  | (name, tree) :: rest => (name, walk (join path name) tree) :: walkEntries path rest

end

/-- The part of a path after its last slash. -/
def fileName (path : Text) : Text := (path.reverse.takeWhile (· != '/')).reverse

/-- The file name ends in a dot and the extension, and something stands before the dot. -/
def hasExtension (extension path : Text) : Bool :=
  (Text.dropSuffix? (fileName path) ('.' :: extension)).any (!·.isEmpty)

end FileTree

end CellBindings
