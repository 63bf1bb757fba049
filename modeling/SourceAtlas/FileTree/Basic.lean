import SourceAtlas.Path
import SourceAtlas.Text.Utf8

/-!
# File trees

A directory holds named entries, sorted by name. A place in a tree is the list of names on the way
to it from the top. A file may be there and not let itself be opened; a directory can always be listed
and entered.
-/

namespace SourceAtlas

/-- Why a file operation failed. `other` is whatever else the operating system says. -/
inductive FileProblem where
  | notFound
  | denied
  | alreadyExists
  | notDirectory
  | isDirectory
  | tooManyLinks
  | other (text : Text)
  deriving DecidableEq, Repr

def FileProblem.text : FileProblem → Text
  | .notFound => "[Errno 2] No such file or directory".toList
  | .denied => "[Errno 13] Permission denied".toList
  | .alreadyExists => "[Errno 17] File exists".toList
  | .notDirectory => "[Errno 20] Not a directory".toList
  | .isDirectory => "[Errno 21] Is a directory".toList
  | .tooManyLinks => "[Errno 40] Too many levels of symbolic links".toList
  | .other text => text

/-- A file with its content, a file that cannot be opened, for reading or for writing, a symbolic
link with its target, or a directory. -/
inductive FileTree where
  | file (content : Bytes)
  | locked (problem : FileProblem)
  | link (target : Path)
  | directory (entries : List (Text × FileTree))
  deriving Repr

namespace FileTree

def empty : FileTree :=
  .directory []

def isDirectory : FileTree → Bool
  | .directory _ => true
  | _ => false

def isFile : FileTree → Bool
  | .file _ => true
  | .locked _ => true
  | _ => false

def entries : FileTree → List (Text × FileTree)
  | .directory entries => entries
  | _ => []

def at? : FileTree → List Text → Option FileTree
  | tree, [] => some tree
  | .directory entries, name :: rest => (entries.lookup name).bind fun child => child.at? rest
  | .file _, _ :: _ => none
  | .locked _, _ :: _ => none
  | .link _, _ :: _ => none

/-- Puts an entry where its name belongs in the order. -/
def putEntry (name : Text) (node : FileTree) : List (Text × FileTree) → List (Text × FileTree)
  | [] => [(name, node)]
  | (other, child) :: rest =>
    if other = name then (name, node) :: rest
    else if name < other then (name, node) :: (other, child) :: rest
    else (other, child) :: putEntry name node rest

/-- Puts a node at a place and makes the directories on the way. Nothing changes when a file or a
link is in the way. -/
def put : FileTree → List Text → FileTree → FileTree
  | _, [], node => node
  | .directory entries, name :: rest, node =>
    .directory (putEntry name (put ((entries.lookup name).getD empty) rest node) entries)
  | .file content, _ :: _, _ => .file content
  | .locked problem, _ :: _, _ => .locked problem
  | .link target, _ :: _, _ => .link target

/-- Makes a directory at a place and those on the way to it; what is there already stays. -/
def putDirectory (tree : FileTree) (place : List Text) : FileTree :=
  if (tree.at? place).isSome then tree else tree.put place empty

def erase : FileTree → List Text → FileTree
  | .directory entries, [name] => .directory (entries.filter fun entry => entry.1 != name)
  | .directory entries, name :: rest =>
    .directory (entries.map fun entry =>
      if entry.1 = name then (entry.1, erase entry.2 rest) else entry)
  | tree, _ => tree

mutual

/-- Every path below a node, with a slash at the end of directories. `above` is put before each. -/
def listing (above : Text) : FileTree → List Text
  | .directory entries => entryListing above entries
  | .file _ => []
  | .locked _ => []
  | .link _ => []

def entryListing (above : Text) : List (Text × FileTree) → List Text
  | [] => []
  | (name, node) :: rest =>
    let path := above ++ name ++ (if node.isDirectory then ['/'] else [])
    path :: (listing path node ++ entryListing above rest)

end

end FileTree

end SourceAtlas
