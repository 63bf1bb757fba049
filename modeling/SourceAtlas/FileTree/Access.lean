import SourceAtlas.FileTree.Basic

/-!
# Access by path

A path is read from a current directory. On the way links are followed and `..` leads up. Resolving
a path also goes on where nothing exists.

A file is opened and then written, and a disk may stop either step. What the disk does is a value that
the operations are given, so that all that can become of a write is in the model.
-/

namespace SourceAtlas

/-- A problem with the path that was asked for. -/
structure FileFault where
  problem : FileProblem
  path : Path
  deriving DecidableEq, Repr

def FileFault.message (fault : FileFault) : Text :=
  fault.problem.text ++ ": ".toList ++ quoted fault.path.text

/-- Why something could not be written: a file or a directory was refused, its path has a null
character in it, or an error came up while the file was open. The last one may be a full disk or a
text that has no encoding. -/
inductive WriteFault where
  | file (fault : FileFault)
  | nullCharacter
  | interrupted (message : Text)
  deriving DecidableEq, Repr

def WriteFault.message : WriteFault → Text
  | .file fault => fault.message
  | .nullCharacter => "embedded null byte".toList
  | .interrupted message => message

/-- Where the writing of a file stops: at its opening, or when so many bytes are in it. -/
inductive Stop where
  | atOpening (problem : FileProblem)
  | inside (length : Nat) (message : Text)
  deriving DecidableEq, Repr

/-- What a disk does not let happen: directories that it refuses to make, and files whose writing
stops. The files are known by the names under which a run writes them. -/
structure Disk where
  refuses : Path → Option FileProblem
  stops : Text → Option Stop

/-- A disk on which everything can be written. -/
def Disk.sound : Disk :=
  { refuses := fun _ => none, stops := fun _ => none }

namespace FileTree

/-- Where a path leads: to a node, or to a free name in a directory. -/
inductive Spot where
  | node (place : List Text) (tree : FileTree)
  | vacant (place : List Text)

def maxLinks : Nat := 40

/-- Follows names from a place; at most `links` links are followed. -/
def locate (tree : FileTree) (links : Nat) (place names : List Text) : Except FileProblem Spot :=
  match names with
  | [] =>
    match tree.at? place with
    | some node => .ok (.node place node)
    | none => .error .notFound
  | name :: rest =>
    match tree.at? place with
    | some (.directory entries) =>
      if name = "..".toList then locate tree links place.dropLast rest
      else
        match entries.lookup name with
        | some (.link target) =>
          match links with
          | 0 => .error .tooManyLinks
          | links + 1 =>
            locate tree links (if target.absolute then [] else place) (target.parts ++ rest)
        | some _ => locate tree links (place ++ [name]) rest
        | none => if rest.isEmpty then .ok (.vacant (place ++ [name])) else .error .notFound
    | some _ => .error .notDirectory
    | none => .error .notFound
termination_by (links, names.length)

/-- Follows names from a place as far as they exist and takes the rest as they are. -/
def resolveNames (tree : FileTree) (links : Nat) (place names : List Text) : List Text :=
  match names with
  | [] => place
  | name :: rest =>
    if name = "..".toList then resolveNames tree links place.dropLast rest
    else
      match tree.at? (place ++ [name]) with
      | some (.link target) =>
        match links with
        | 0 => resolveNames tree 0 (place ++ [name]) rest
        | links + 1 =>
          resolveNames tree links (if target.absolute then [] else place) (target.parts ++ rest)
      | _ => resolveNames tree links (place ++ [name]) rest
termination_by (links, names.length)

def spot (tree : FileTree) (here path : Path) : Except FileProblem Spot :=
  locate tree maxLinks [] (here.join path).parts

/-- The absolute path without links and `..`. -/
def resolve (tree : FileTree) (here path : Path) : Path :=
  { absolute := true, parts := resolveNames tree maxLinks [] (here.join path).parts }

def node? (tree : FileTree) (here path : Path) : Option FileTree :=
  match tree.spot here path with
  | .ok (.node _ node) => some node
  | _ => none

def pathExists (tree : FileTree) (here path : Path) : Bool :=
  (tree.node? here path).isSome

def isDirectoryAt (tree : FileTree) (here path : Path) : Bool :=
  (tree.node? here path).any isDirectory

def isFileAt (tree : FileTree) (here path : Path) : Bool :=
  (tree.node? here path).any isFile

def read (tree : FileTree) (here path : Path) : Except FileFault Bytes :=
  match tree.spot here path with
  | .ok (.node _ (.file content)) => .ok content
  | .ok (.node _ (.locked problem)) => .error ⟨problem, path⟩
  | .ok (.node _ _) => .error ⟨.isDirectory, path⟩
  | .ok (.vacant _) => .error ⟨.notFound, path⟩
  | .error problem => .error ⟨problem, path⟩

/-- A tree after a change, and why the change could not be finished. -/
structure Change where
  tree : FileTree
  fault : Option WriteFault

/-- Where a path lets a file be opened for writing, with what is in the file. -/
def slot (tree : FileTree) (here path : Path) : Except WriteFault (List Text × Bytes) :=
  if path.hasNull then .error .nullCharacter
  else
    match tree.spot here path with
    | .ok (.node place (.file old)) => .ok (place, old)
    | .ok (.node _ (.locked problem)) => .error (.file ⟨problem, path⟩)
    | .ok (.node _ _) => .error (.file ⟨.isDirectory, path⟩)
    | .ok (.vacant place) => .ok (place, [])
    | .error problem => .error (.file ⟨problem, path⟩)

def append (tree : FileTree) (here path : Path) (content : Bytes) : Change :=
  match tree.slot here path with
  | .error fault => ⟨tree, some fault⟩
  | .ok (place, old) => ⟨tree.put place (.file (old ++ content)), none⟩

/-- Opens a file to be written anew. From then on it is there and empty. -/
def openEmpty (tree : FileTree) (here path : Path) (stop : Option Stop) :
    Except WriteFault (List Text × FileTree) :=
  match tree.slot here path with
  | .error fault => .error fault
  | .ok (place, _) =>
    match stop with
    | some (.atOpening problem) => .error (.file ⟨problem, path⟩)
    | _ => .ok (place, tree.put place (.file []))

/-- Opens a file and writes it, up to where the disk stops. -/
def write (tree : FileTree) (here path : Path) (content : Bytes) (stop : Option Stop) : Change :=
  match tree.openEmpty here path stop with
  | .error fault => ⟨tree, some fault⟩
  | .ok (place, opened) =>
    match stop with
    | some (.inside length message) =>
      ⟨opened.put place (.file (content.take length)), some (.interrupted message)⟩
    | _ => ⟨opened.put place (.file content), none⟩

def makeDirectory (refuses : Path → Option FileProblem) (tree : FileTree) (here path : Path) :
    Except FileProblem FileTree :=
  let names := (here.join path).parts
  match names.getLast? with
  | none => .error .alreadyExists
  | some name =>
    match locate tree maxLinks [] names.dropLast with
    | .error problem => .error problem
    | .ok (.vacant _) => .error .notFound
    | .ok (.node place node) =>
      match node with
      | .directory entries =>
        if name = "..".toList || (entries.lookup name).isSome then .error .alreadyExists
        else
          match refuses path with
          | some problem => .error problem
          | none => .ok (tree.put (place ++ [name]) empty)
      | _ => .error .notDirectory

/-- Makes a directory and those above it. The names of the path come last one first. It does not
matter if the directory exists. -/
def makeChain (refuses : Path → Option FileProblem) (tree : FileTree) (here : Path)
    (absolute : Bool) : List Text → Change
  | [] => ⟨tree, none⟩
  | name :: above =>
    let path : Path := { absolute, parts := (name :: above).reverse }
    let settle := fun (tree : FileTree) (problem : FileProblem) =>
      if tree.isDirectoryAt here path then Change.mk tree none
      else Change.mk tree (some (.file ⟨problem, path⟩))
    match makeDirectory refuses tree here path with
    | .ok made => ⟨made, none⟩
    | .error .notFound =>
      match makeChain refuses tree here absolute above with
      | ⟨made, some fault⟩ => ⟨made, some fault⟩
      | ⟨made, none⟩ =>
        match makeDirectory refuses made here path with
        | .ok made => ⟨made, none⟩
        | .error problem => settle made problem
    | .error problem => settle tree problem

def makeDirectories (refuses : Path → Option FileProblem) (tree : FileTree) (here path : Path) :
    Change :=
  if path.hasNull then ⟨tree, some .nullCharacter⟩
  else makeChain refuses tree here path.absolute path.parts.reverse

end FileTree

end SourceAtlas
