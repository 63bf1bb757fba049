import SourceAtlas.Text.Basic
import SourceAtlas.Text.Case

/-!
# Outlines

A set of paths drawn as a tree with one line for each file or directory. Directories come before
files, and names are sorted without regard to letter case.
-/

namespace SourceAtlas

/-- A named node with its children in the order in which they were first seen. -/
inductive OutlineNode where
  | node (name : Text) (children : List OutlineNode)
  deriving Repr

namespace OutlineNode

def name : OutlineNode → Text
  | .node name _ => name

def chain : List Text → List OutlineNode
  | [] => []
  | part :: rest => [.node part (chain rest)]

def insert (parts : List Text) (forest : List OutlineNode) : List OutlineNode :=
  match parts with
  | [] => forest
  | part :: rest =>
    match forest with
    | [] => [.node part (chain rest)]
    | .node name children :: others =>
      if name = part then .node name (insert rest children) :: others
      else .node name children :: insert (part :: rest) others
termination_by (parts.length, forest.length)

def ofPaths (paths : List Text) : List OutlineNode :=
  paths.foldl (fun forest path => insert (splitOn '/' path) forest) []

end OutlineNode

/-- The drawing of one node: what it is sorted by, its own line and the lines below it. -/
structure OutlineBlock where
  isFile : Bool
  sortName : Text
  label : Text
  below : List Text

namespace OutlineBlock

/-- Directories come first, then the name in lower case decides. -/
def precedes (first second : OutlineBlock) : Bool :=
  if first.isFile == second.isFile then !decide (second.sortName < first.sortName)
  else second.isFile

def draw (isLast : Bool) (block : OutlineBlock) : List Text :=
  let branch := if isLast then "└── ".toList else "├── ".toList
  let indent := if isLast then "    ".toList else "│   ".toList
  (branch ++ block.label) :: block.below.map (indent ++ ·)

/-- The lines of sorted blocks; the last one gets the closing branch. -/
def drawAll : List OutlineBlock → List Text
  | [] => []
  | [block] => block.draw true
  | block :: rest => block.draw false ++ drawAll rest

end OutlineBlock

mutual

def OutlineNode.block : OutlineNode → OutlineBlock
  | .node name children =>
    let blocks := OutlineNode.blocks children
    { isFile := children.isEmpty
      sortName := lower name
      label := if children.isEmpty then name else name ++ ['/']
      below := OutlineBlock.drawAll (blocks.mergeSort OutlineBlock.precedes) }

def OutlineNode.blocks : List OutlineNode → List OutlineBlock
  | [] => []
  | child :: rest => OutlineNode.block child :: OutlineNode.blocks rest

end

def renderOutline (root : Text) (paths : List Text) : Text :=
  let blocks := OutlineNode.blocks (OutlineNode.ofPaths paths)
  joinWith ['\n'] ((root ++ ['/']) ::
    OutlineBlock.drawAll (blocks.mergeSort OutlineBlock.precedes))

end SourceAtlas
