import SourceAtlas.Command.Run
import SourceAtlas.Document.Yaml
import SourceAtlas.FileTree.Changes
import SourceAtlas.Report.Placeholder
import Std.Time.Format

/-!
# The program

Reads the files that a command line is about into a file tree, runs the command line on it and
writes back what has changed.
-/

namespace SourceAtlas.Program

/-- The reader of YAML, the template engine and the disk of the program. Where the real disk stops, the
program ends. -/
def tools : Overview.Tools :=
  { yaml := Yaml.read, engine := Report.fill, disk := .sound }

/-- A place as an entry on disk. -/
def entryAt (place : List Text) : IO.FS.DirEntry :=
  { root := "/", fileName := String.ofList (joinWith ['/'] place) }

/-- What is at a place, links not followed. -/
def fileType? (place : List Text) : IO (Option IO.FS.FileType) := do
  match ← (entryAt place).path.symlinkMetadata.toBaseIO with
  | .ok found => return some found.type
  | .error _ => return none

/-- The place that a place leads to when all links are followed. -/
def realPlace? (place : List Text) : IO (Option (List Text)) := do
  match ← (IO.FS.realPath (entryAt place).path).toBaseIO with
  | .ok path => return some (Path.ofText path.toString.toList).parts
  | .error _ => return none

def problemOf : IO.Error → FileProblem
  | .permissionDenied .. => .denied
  | error => .other error.toString.toList

def loadFile (place : List Text) : IO FileTree := do
  match ← (IO.FS.readBinFile (entryAt place).path).toBaseIO with
  | .ok content => return .file content.toList
  | .error error => return .locked (problemOf error)

/-- Where the links go that lead to nothing: no file has a null character in its name. -/
def nowhere : Path :=
  { absolute := true, parts := [['\x00']] }

/-- Puts the node at a place into a file tree: a file with its content, a directory without its
entries, and a link with the node that it leads to. -/
def loadNode (tree : FileTree) (place : List Text) : IO FileTree := do
  match ← fileType? place with
  | none => return tree
  | some .dir => return tree.putDirectory place
  | some .symlink =>
    match ← realPlace? place with
    | none => return tree.put place (.link nowhere)
    | some target =>
      let tree := tree.put place (.link { absolute := true, parts := target })
      if ← (entryAt target).path.isDir then return tree.putDirectory target
      else return tree.put target (← loadFile target)
  | some _ => return tree.put place (← loadFile place)

/-- Puts the node at a place into a file tree with all that is below it. Directories that are never
entered are left empty, and links to directories are not followed. -/
partial def loadAll (tree : FileTree) (place : List Text) : IO FileTree := do
  let mut tree ← loadNode tree place
  if (← fileType? place) == some .dir then
    match ← (entryAt place).path.readDir.toBaseIO with
    | .error _ => return tree
    | .ok children =>
      for child in children do
        let name := child.fileName.toList
        let entered := !excludedDirectories.contains name
        tree ← (if entered then loadAll else loadNode) tree (place ++ [name])
  return tree

/-- Puts what a path on disk leads to into a file tree, with the links on the way. Of a path that
leads to nothing the last node that is there is put into the tree. -/
def addWay (load : FileTree → List Text → IO FileTree) (tree : FileTree) (place : List Text) :
    List Text → IO FileTree
  | [] => load tree place
  | name :: rest => do
    if name = "..".toList then addWay load tree place.dropLast rest
    else
      let next := place ++ [name]
      match ← fileType? next with
      | none => loadNode tree place
      | some .symlink =>
        let tree ← loadNode tree next
        match ← realPlace? next with
        | none => return tree
        | some target => addWay load tree target rest
      | some _ => addWay load tree next rest

/-- The file tree that a request is about: the workspace, the settings, the templates, the log file
and the output directory. -/
def gather (here : Path) (request : Command.Request) : IO FileTree := do
  let add := fun load tree path => addWay load tree [] (here.join path).parts
  let root := Path.ofText request.path
  let settings := Overview.settingsPath root (request.value? .config)
  let mut tree := FileTree.empty.putDirectory here.parts
  tree ← add loadAll tree root
  if settings ≠ root then
    tree ← add loadAll tree settings
  if let .ok { templatesDir := some templates, .. } := Settings.load tools.yaml tree here settings then
    tree ← add loadAll tree templates
  for given in [request.value? .logFile, request.value? .outputDir].filterMap id do
    tree ← add loadNode tree (.ofText given)
  return tree

/-- Writes a file, with the directories above it. -/
def store (place : List Text) (content : Bytes) : IO Unit := do
  let path : Path := { absolute := true, parts := place }
  IO.FS.createDirAll (String.ofList path.parent.text)
  IO.FS.writeBinFile (String.ofList path.text) ⟨content.toArray⟩

/-- Runs a command line on the files on disk. -/
def run (arguments : List Text) : IO UInt32 := do
  let here := Path.ofText (← IO.currentDir).toString.toList
  let stamp := ((← Std.Time.PlainDateTime.now).format "uuuu-MM-dd HH:mm:ss,SSS").toList
  let before ← match Command.parse arguments with
    | .ok request => gather here request
    | .error _ => pure FileTree.empty
  let result := Command.run tools before here stamp arguments
  for (place, content) in before.newFiles result.tree do
    store place content
  IO.print (String.ofList result.output)
  IO.eprint (String.ofList result.errors)
  match result.status with
  | .ok status => return status.toUInt32
  | .error failure =>
    IO.eprintln (String.ofList failure.message)
    return 1

end SourceAtlas.Program

/-- The entry point of the program. -/
def main (arguments : List String) : IO UInt32 :=
  SourceAtlas.Program.run (arguments.map String.toList)
