import SourceAtlas.Document.Yaml.Flow

/-!
# YAML

A reader of one document of block lists and tables with flow values and scalars. Anchors, tags, block
scalars and explicit keys are refused like any other malformed text. What is said about loading
settings is said of every reader, not of this one.
-/

namespace SourceAtlas.Yaml

def firstLine (text : Text) : Text :=
  text.takeWhile (· != '\n')

def afterLine (text : Text) : Text :=
  text.drop ((firstLine text).length + 1)

def isEmptyLine (line : Text) : Bool :=
  match line.dropWhile (· == ' ') with
  | [] => true
  | c :: _ => c == '#'

def skipEmptyLines (text : Text) : Text :=
  if text = [] then []
  else if isEmptyLine (firstLine text) then
    if (afterLine text).length < text.length then skipEmptyLines (afterLine text) else []
  else text
termination_by text.length

def indentOf (text : Text) : Nat :=
  (text.takeWhile (· == ' ')).length

def startsItem (text : Text) : Bool :=
  match text with
  | '-' :: [] => true
  | '-' :: c :: _ => c == ' ' || c == '\n'
  | _ => false

def startsValue (text : Text) : Bool :=
  match text with
  | ':' :: [] => true
  | ':' :: c :: _ => isInnerBlank c
  | _ => false

/-- Reads a key on one line with its colon. Gives the key and what follows the colon. -/
def key? (text : Text) : Option (Text × Text) := do
  let line := firstLine text
  let (value, after) ← scalar? false 0 line
  let after := after.dropWhile (· == ' ')
  if startsValue after then
    let key ← keyText? value
    some (key, text.drop (line.length - after.length + 1))
  else none

/-- What is left of a line after a value: nothing but blanks and a comment. Gives the next lines. -/
def endLine? (text : Text) : Option Text :=
  if isEmptyLine (firstLine text) then some (afterLine text) else none

def inlineNode? (floor : Nat) (text : Text) : Option (Document × Text) := do
  let (value, after) ← match text with
    | '[' :: _ => flowNode? (2 * text.length + 2) text
    | '{' :: _ => flowNode? (2 * text.length + 2) text
    | _ => scalar? false floor text
  let rest ← endLine? after
  some (value, rest)

mutual

/-- Reads the value at the start of some lines. It has to be indented by `floor` or more, else there
is none and the value is null. -/
def blockNode? : Nat → Nat → Text → Option (Document × Text)
  | 0, _, _ => none
  | fuel + 1, floor, text =>
    let lines := skipEmptyLines text
    let indent := indentOf lines
    let content := lines.drop indent
    if content.isEmpty || indent < floor then some (.null, lines)
    else if startsItem content then blockList? fuel indent [] lines
    else if (key? content).isSome then blockTable? fuel indent [] lines
    else inlineNode? floor content

/-- Reads the items of a block list; `items` are those before, last one first. -/
def blockList? : Nat → Nat → List Document → Text → Option (Document × Text)
  | 0, _, _, _ => none
  | fuel + 1, indent, items, text =>
    let lines := skipEmptyLines text
    let content := lines.drop indent
    if indentOf lines = indent && startsItem content then do
      let (item, rest) ← blockNode? fuel (indent + 1)
        (List.replicate (indent + 1) ' ' ++ content.drop 1)
      blockList? fuel indent (item :: items) rest
    else some (.list items.reverse, lines)

def blockTable? : Nat → Nat → Entries Text Document → Text → Option (Document × Text)
  | 0, _, _, _ => none
  | fuel + 1, indent, entries, text =>
    let lines := skipEmptyLines text
    if lines.isEmpty || indentOf lines < indent then some (.table entries, lines)
    else if indentOf lines = indent then do
      let (key, after) ← key? (lines.drop indent)
      let (value, rest) ← tableValue? fuel indent after
      blockTable? fuel indent (Entries.put key value entries) rest
    else none

/-- Reads the value after a key: on the same line, or on the lines below. A list may stand at the
indentation of its key. -/
def tableValue? : Nat → Nat → Text → Option (Document × Text)
  | 0, _, _ => none
  | fuel + 1, indent, text =>
    if isEmptyLine (firstLine text) then
      let lines := skipEmptyLines (afterLine text)
      if indentOf lines = indent && startsItem (lines.drop indent) then
        blockList? fuel indent [] lines
      else blockNode? fuel (indent + 1) lines
    else inlineNode? (indent + 1) (text.dropWhile (· == ' '))

end

/-- Whether a line is a marker: three characters alone or with a blank after them. -/
def isMarkerLine (marker line : Text) : Bool :=
  startsWith marker line && (line.drop 3).head?.all fun c => c == ' ' || c == '\t'

def splitMarker (lines : List Text) : List Text × List Text :=
  let before := lines.takeWhile fun line =>
    !isMarkerLine "---".toList line && !isMarkerLine "...".toList line
  (before, lines.drop before.length)

/-- Whether nothing but an end marker and empty lines follow a document. -/
def endsStream (lines : List Text) : Bool :=
  match lines with
  | [] => true
  | line :: rest => isMarkerLine "...".toList line && isEmptyLine (line.drop 3) &&
      rest.all isEmptyLine

def documentLines? (lines : List Text) : Option (List Text) :=
  let (before, after) := splitMarker lines
  if before.all isEmptyLine then
    match after with
    | [] => some []
    | line :: rest =>
      if isMarkerLine "---".toList line then
        let (body, after) := splitMarker rest
        if endsStream after then some (("   ".toList ++ line.drop 3) :: body) else none
      else if endsStream after then some [] else none
  else if endsStream after then some before else none

def isAllowed (c : Char) : Bool :=
  let n := c.toNat
  n == 9 || n == 10 || n == 13 || (0x20 ≤ n && n ≤ 0x7E) || n == 0x85 ||
    (0xA0 ≤ n && n ≤ 0xD7FF) || (0xE000 ≤ n && n ≤ 0xFFFD) || 0x10000 ≤ n

/-- Reads the one document of a text; nothing when it is malformed. -/
def parse? (text : Text) : Option Document := do
  let text := if text.head? == some (Char.ofNat 0xFEFF) then text.drop 1 else text
  if text.all isAllowed then
    let lines ← documentLines? (splitOn '\n' text)
    let body := joinWith ['\n'] lines
    let (value, rest) ← blockNode? (2 * body.length + 10) 0 body
    if (skipEmptyLines rest).isEmpty then some value else none
  else none

def read : YamlReader := fun text =>
  match parse? text with
  | some value => .document value
  | none => .malformed []

end SourceAtlas.Yaml
