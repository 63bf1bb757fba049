import SourceAtlas.Text.Case
import SourceAtlas.Text.Basic

/-!
# Paths

A path is a list of parts between slashes, from the root or from the current directory. Empty parts
and `.` are dropped; `..` stays.
-/

namespace SourceAtlas

/-- A path. -/
structure Path where
  absolute : Bool
  parts : List Text
  deriving DecidableEq, Repr

namespace Path

def partsOf (text : Text) : List Text :=
  (splitOn '/' text).filter fun part => part != [] && part != ['.']

def ofText (text : Text) : Path :=
  { absolute := text.head? == some '/', parts := partsOf text }

/-- The text of a path; the current directory is a dot. -/
def text (path : Path) : Text :=
  if path.absolute then '/' :: joinWith ['/'] path.parts
  else if path.parts.isEmpty then ['.'] else joinWith ['/'] path.parts

/-- The second path seen from the first; an absolute one replaces it. -/
def join (base path : Path) : Path :=
  if path.absolute then path else { base with parts := base.parts ++ path.parts }

def parent (path : Path) : Path :=
  { path with parts := path.parts.dropLast }

/-- The path with every `..` taken away together with the name before it. -/
def collapse (path : Path) : Path :=
  let step := fun (done : List Text) (part : Text) =>
    if part = "..".toList then done.dropLast else done ++ [part]
  { path with parts := path.parts.foldl step [] }

def name (path : Path) : Text :=
  path.parts.getLast?.getD []

/-- Whether a path has a null character in it. No file can be opened under such a path. -/
def hasNull (path : Path) : Bool :=
  path.parts.any (·.contains '\x00')

end Path

/-- Splits a file name at its last dot. There is no extension when the dot comes first or last. -/
def splitExtension (name : Text) : Text × Text :=
  let ending := afterLast '.' name
  let stem := dropEnd (ending.length + 1) name
  if name.contains '.' && !ending.isEmpty && !stem.isEmpty then (stem, '.' :: ending)
  else (name, [])

def extensionOf (path : Text) : Text :=
  (splitExtension (Path.ofText path).name).2

def stemOf (path : Text) : Text :=
  (splitExtension (Path.ofText path).name).1

end SourceAtlas
