import SourceAtlas.FileTree.Access
import SourceAtlas.Settings
import SourceAtlas.Workspace.Ignore

/-!
# Walking a workspace

The relative paths of the files below a directory. Directories of build results and tools are left
out, and so is what the ignore rules match. The files of a directory come before those below it. A
link to a directory counts as a directory and is not followed; any other link counts as a file.
-/

namespace SourceAtlas

def overviewDirectory : Text :=
  "PROJECT_OVERVIEW".toList

def excludedDirectories : List Text :=
  ["bin", "obj", "node_modules", ".git", ".hg", ".svn", ".vs", ".idea", ".vscode", ".venv",
    ".godot", "__pycache__", "dist"].map String.toList ++ [overviewDirectory]

def entryPath (directory name : Text) : Text :=
  if directory.isEmpty then name else directory ++ '/' :: name

/-- Whether the node at a place of a tree is a directory or a link that leads to one. -/
def FileTree.countsAsDirectory (tree : FileTree) (place : List Text) : FileTree → Bool
  | .directory _ => true
  | .link _ => tree.isDirectoryAt ⟨true, []⟩ ⟨true, place⟩
  | _ => false

mutual

/-- The files below the node at a place of a tree. `directory` is the relative path of the node. -/
def FileTree.walk (tree : FileTree) (rules : List IgnoreRule) (place : List Text)
    (directory : Text) : FileTree → List Text
  | .directory entries =>
    let (files, below) := walkEntries tree rules place directory entries
    files ++ below
  | .file _ => []
  | .locked _ => []
  | .link _ => []

def walkEntries (tree : FileTree) (rules : List IgnoreRule) (place : List Text)
    (directory : Text) : List (Text × FileTree) → List Text × List Text
  | [] => ([], [])
  | (name, node) :: rest =>
    let (files, below) := walkEntries tree rules place directory rest
    let path := entryPath directory name
    if tree.countsAsDirectory (place ++ [name]) node then
      if excludedDirectories.contains name || isIgnored rules path true then (files, below)
      else (files, tree.walk rules (place ++ [name]) path node ++ below)
    else if isIgnored rules path false then (files, below)
    else (path :: files, below)

end

namespace Workspace

/-- The rules of a workspace. Its ignore file may be missing, but if it is there it has to be
readable. -/
def ignoreRules (tree : FileTree) (root : Path) : Except FileFault (List IgnoreRule) :=
  match tree.node? root (.ofText ".gitignore".toList) with
  | some (.file content) => .ok (IgnoreRule.parseFile (Utf8.repair content))
  | some (.locked problem) => .error ⟨problem, root.join (.ofText ".gitignore".toList)⟩
  | _ => .ok []

def files (tree : FileTree) (root : Path) (rules : List IgnoreRule) : List Text :=
  match tree.spot root root with
  | .ok (.node place node) => tree.walk rules place [] node
  | _ => []

/-- Why a path is no workspace. -/
inductive RootFault where
  | notFound (given : Text)
  | notDirectory (given : Text)
  deriving DecidableEq, Repr

def RootFault.message : RootFault → Text
  | .notFound given => "Workspace path not found: ".toList ++ given
  | .notDirectory given => "Workspace path is not a directory: ".toList ++ given

/-- The directory that a workspace path leads to. A `~` in front is taken as any other name: a path
is given with home directories already expanded. -/
def resolveRoot (tree : FileTree) (here : Path) (given : Text) : Except RootFault Path :=
  let root := tree.resolve here (.ofText given)
  if !tree.pathExists here root then .error (.notFound given)
  else if !tree.isDirectoryAt here root then .error (.notDirectory given)
  else .ok root

/-- A pattern for directories without what may stand around its names. -/
def directoryPattern (raw : Text) : Text :=
  lower (dropEndWhile (· == '/')
    ((trim (forwardSlashes raw)).dropWhile fun c => c == '*' || c == '/'))

/-- Whether a pattern excludes a directory from the drawn tree. With a slash in it a pattern is the
end of the path, else it is held against the name. -/
def excludesDirectory (directory raw : Text) : Bool :=
  let directory := lower directory
  let pattern := directoryPattern raw
  if pattern.isEmpty then false
  else if pattern.contains '/' then
    directory == pattern || endsWith ('/' :: pattern) directory
  else globMatches pattern (afterLast '/' directory)

/-- The directories on the way to the last of some parts, each as a path. -/
def directoriesAbove (above : Text) : List Text → List Text
  | [] => []
  | [_] => []
  | part :: rest => entryPath above part :: directoriesAbove (entryPath above part) rest

def isShown (layout : Option LayoutSettings) (path : Text) : Bool :=
  match layout with
  | none => true
  | some layout =>
    !(directoriesAbove [] (splitOn '/' path)).any (fun directory =>
      layout.excludedPaths.any (excludesDirectory directory)) &&
    !(layout.excludedExtensions.map normaliseExtension).contains (lower (extensionOf path))

def shownFiles (tree : FileTree) (root : Path) (layout : Option LayoutSettings) :
    Except FileFault (List Text) :=
  (ignoreRules tree root).map fun rules => (files tree root rules).filter (isShown layout)

def displayName (root : Path) : Text :=
  if root.name.isEmpty then root.text else root.name

end Workspace

end SourceAtlas
