import SourceAtlas.Workspace.Walk

/-!
# Sources of a workspace

The files with a wanted extension, read and sorted by path. A file that cannot be read has an empty
text.
-/

namespace SourceAtlas.Workspace

/-- A source, with the fault that kept it from being read. -/
structure Reading where
  source : Source
  fault : Option FileFault

def readSource (tree : FileTree) (root : Path) (path : Text) : Reading :=
  let extension := lower (extensionOf path)
  match tree.read root (root.join (.ofText path)) with
  | .ok content => ⟨⟨path, extension, Utf8.repair content⟩, none⟩
  | .error fault => ⟨⟨path, extension, []⟩, some fault⟩

def readings (tree : FileTree) (root : Path) (extensions : List Text) :
    Except FileFault (List Reading) :=
  let wanted := extensions.map lower
  (ignoreRules tree root).map fun rules => ((files tree root rules).filter fun path =>
    wanted.contains (lower (extensionOf path))).map (readSource tree root)

def sorted (sources : List Source) : List Source :=
  sources.mergeSort fun first second => !decide (second.path < first.path)

def sources (tree : FileTree) (root : Path) (extensions : List Text) :
    Except FileFault (List Source) :=
  (readings tree root extensions).map fun readings => sorted (readings.map (·.source))

end SourceAtlas.Workspace
