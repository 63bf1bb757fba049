import SourceAtlas.FileTree.Basic

/-!
# Changes between file trees

The files of one tree that another does not have with the same content.
-/

namespace SourceAtlas.FileTree

mutual

/-- The files of a tree with their places. `above` is the place of the tree itself. -/
def contents (above : List Text) : FileTree → List (List Text × Bytes)
  | .file content => [(above, content)]
  | .locked _ => []
  | .link _ => []
  | .directory entries => entryContents above entries

def entryContents (above : List Text) : List (Text × FileTree) → List (List Text × Bytes)
  | [] => []
  | (name, node) :: rest => contents (above ++ [name]) node ++ entryContents above rest

end

def hasFile (tree : FileTree) (place : List Text) (content : Bytes) : Bool :=
  match tree.at? place with
  | some (.file old) => old == content
  | _ => false

def newFiles (before after : FileTree) : List (List Text × Bytes) :=
  (after.contents []).filter fun (place, content) => !before.hasFile place content

end SourceAtlas.FileTree
