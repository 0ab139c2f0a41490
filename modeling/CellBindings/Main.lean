import CellBindings.Command

/-!
The program: it reads the file or directory that the command names, and prints what the command
writes.
-/

namespace CellBindings

def ReadError.ofSystem : IO.Error → ReadError
  | .noFileOrDirectory _ _ _ => .notFound
  | .inappropriateType _ _ _ => .notDirectory
  | error => .system (toString error)

/-- Loads a file, or a directory with the files that may hold a notebook. Links in a directory are
not followed. -/
partial def loadTree (place : IO.FS.DirEntry) : IO FileTree := do
  match (← place.path.metadata).type with
  | .dir =>
    let inner ← place.path.readDir
    let entries ← inner.toList.filterMapM fun entry => do
      let name := entry.fileName.toList
      let wanted := match (← entry.path.symlinkMetadata).type with
        | .dir => true
        | .file => FileTree.hasExtension Command.sourceExtension name
        | _ => false
      if wanted then return some (name, ← loadTree entry) else return none
    return .directory entries
  | _ => return .file (← IO.FS.readBinFile place.path)

def loadPath (path : Text) : IO (Except ReadError FileTree) := do
  try
    return .ok (← loadTree ⟨← IO.currentDir, String.ofList path⟩)
  catch error => return .error (.ofSystem error)

def runProgram (arguments : List Text) : IO Outcome := do
  match CommandLine.read arguments with
  | .error interruption =>
    if let .misuse error := interruption then IO.eprintln error.message
    return interruption.outcome
  | .ok request =>
    match request.command.path? with
    | none => return request.run (fun _ => .error .notFound) (← (← IO.getStdin).readBinToEnd)
    | some path =>
      let found ← loadPath path
      return request.run (fun _ => found) .empty

end CellBindings

def main (arguments : List String) : IO UInt32 := do
  let outcome ← CellBindings.runProgram (arguments.map String.toList)
  IO.print outcome.output
  return outcome.exitCode.toUInt32
