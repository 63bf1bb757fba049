import SourceAtlas.Header.Basic
import SourceAtlas.Path

/-!
# GDScript

A script is one class. Its members stand on lines without indentation; a parameter list may go on
over further lines.
-/

namespace SourceAtlas.Script

def afterKeyword? (keyword : String) (text : Text) : Option Text :=
  dropWord? [keyword.toList] text

def splitWord? (text : Text) : Option (Text × Text) :=
  let word := text.takeWhile isWord
  if word.isEmpty then none else some (word, text.dropWhile isWord)

/-- A line without its comment. A line with a quote before the first `#` is kept whole. -/
def dropComment (line : Text) : Text :=
  let head := line.takeWhile (· ≠ '#')
  if line.contains '#' && !(head.contains '\x22') && !(head.contains '\x27') then trimRight head
  else trimRight line

def quotedBase? (quote : Char) (text : Text) : Option Text :=
  match text with
  | c :: rest =>
    let inner := rest.takeWhile (· ≠ quote)
    if c = quote && !inner.isEmpty && inner.length < rest.length then some inner else none
  | [] => none

def stripQuotes (text : Text) : Text :=
  dropEndWhile (fun c => c == '\x22' || c == '\x27')
    (text.dropWhile fun c => c == '\x22' || c == '\x27')

/-- The class named after `extends`: a dotted name or a quoted path. -/
def extendsBase? (line : Text) : Option Text := do
  let after ← afterKeyword? "extends" line
  let dotted := after.takeWhile isDottedWord
  if !dotted.isEmpty then some dotted
  else
    match quotedBase? '\x22' after with
    | some base => some (stripQuotes base)
    | none => (quotedBase? '\x27' after).map stripQuotes

/-- The name after `class_name`, and the rest of the line. -/
def className? (line : Text) : Option (Text × Text) :=
  (afterKeyword? "class_name" line).bind splitWord?

/-- A line without a leading `static`. -/
def dropStatic (line : Text) : Text :=
  (afterKeyword? "static" line).getD line

def functionHeader? (line : Text) : Option (Text × Nat) := do
  let after ← afterKeyword? "func" (dropStatic line)
  let (name, rest) ← splitWord? after
  match trimLeft rest with
  | '(' :: tail => some (name, line.length - tail.length - 1)
  | _ => none

/-- The result type after a parameter list: what stands between `->` and the closing colon. -/
def resultType? (after : Text) : Option Text := do
  let rest ← dropHead? "->".toList (trimLeft after)
  let start := trimLeft rest
  let run := start.takeWhile (· ≠ ':')
  let tail := start.drop run.length
  if isBlankText (tail.drop 1) then
    if run.isEmpty then (rest.takeWhile isBlank).getLast?.map ([·]) else some (trimRight run)
  else none

/-- Appends lines to a function header until its parameter list closes. Gives the text and the
lines that are left. -/
def joinParameters (openParen : Nat) (text : Text) : List Text → Text × List Text
  | [] => (text, [])
  | raw :: rest =>
    if (findParen text openParen).isSome then (text, raw :: rest)
    else joinParameters openParen (text ++ ' ' :: trim raw) rest

def variableParts? (line : Text) : Option (Text × Text × Text) := do
  let line := dropStatic line
  let (keyword, after) ← ["var", "const"].findSome? fun keyword =>
    (afterKeyword? keyword line).map (keyword.toList, ·)
  let (name, rest) ← splitWord? after
  match trimLeft rest with
  | [] => some (keyword, name, unknownType)
  | '=' :: _ => some (keyword, name, unknownType)
  | ':' :: type =>
    some (keyword, name, typeOrUnknown (trim (type.takeWhile fun c => c != '=' && c != ':')))
  | _ => none

def function (line : Text) (name : Text) (openParen : Nat) (below : List Text)
    (markers : List Marker) : Option Member × List Text :=
  let (text, left) := joinParameters openParen line below
  match findParen text openParen with
  | none => (none, left)
  | some close =>
    let head := text.take (close + 1)
    let kind := if name == "_init".toList then MemberKind.constructor else .method
    match resultType? (text.drop (close + 1)) with
    | some result => (some ⟨name, kind, result, head ++ " -> ".toList ++ result, markers⟩, left)
    | none => (some ⟨name, kind, unknownType, head, markers⟩, left)

def plainMember? (line : Text) (markers : List Marker) : Option Member :=
  match (afterKeyword? "signal" line).bind splitWord? with
  | some (name, _) =>
    some ⟨name, .signal, unknownType, trimRight (dropEndWhile (· == ':') line), markers⟩
  | none =>
    match variableParts? line with
    | some (keyword, name, declared) =>
      let head := keyword ++ ' ' :: name
      let signature := if declared = unknownType then head else head ++ ": ".toList ++ declared
      let kind := if keyword == "const".toList then MemberKind.readonly else .property
      some ⟨name, kind, declared, signature, markers⟩
    | none =>
      ((afterKeyword? "enum" line).bind splitWord?).map fun (name, _) =>
        ⟨name, .field, unknownType, "enum ".toList ++ name, markers⟩

def member (line : Text) (below : List Text) (markers : List Marker) :
    Option Member × List Text :=
  match functionHeader? line with
  | some (name, openParen) => function line name openParen below markers
  | none => (plainMember? line markers, below)

/-- What was read of a script so far. `pending` are markers whose member is still to come. -/
structure Progress where
  className : Option Text
  baseTypes : List Text
  classMarkers : List Marker
  pending : List Marker
  members : List Member

def isPassedOver (raw : Text) : Bool :=
  isBlankText raw || raw.head? == some ' ' || raw.head? == some '\t' || raw.head? == some '#'

/-- Members that are left out: names that start with an underscore, callbacks apart. -/
def isHidden (name : Text) : Bool :=
  name.head? == some '_' && !isLifecycleHook name

/-- Reads one line. Gives the new progress and the lines that are left. -/
def readLine (progress : Progress) (raw : Text) (below : List Text) : Progress × List Text :=
  if isPassedOver raw then (progress, below)
  else
    let (markers, line) := peelDecorators (dropComment raw)
    let pending := progress.pending ++ markers
    if line.isEmpty then ({ progress with pending }, below)
    else
      match className? line with
      | some (name, after) =>
        ({ progress with
            className := some name
            baseTypes := ((extendsBase? (trim after)).map ([·])).getD progress.baseTypes
            classMarkers := progress.classMarkers ++ pending
            pending := [] }, below)
      | none =>
        match extendsBase? line with
        | some base =>
          ({ progress with
              baseTypes := [base]
              classMarkers := progress.classMarkers ++ pending
              pending := [] }, below)
        | none =>
          let (found, left) := member line below pending
          let shown := found.toList.filter fun member => !isHidden member.name
          ({ progress with pending := [], members := progress.members ++ shown }, left)

def readLines (progress : Progress) (below : List Text) : Progress :=
  match below with
  | [] => progress
  | raw :: rest =>
    let (next, left) := readLine progress raw rest
    if left.length ≤ rest.length then readLines next left else next
termination_by below.length

/-- Scans a script. The class is named after the file when it names itself nowhere. -/
def scan (source : Source) : FileSummary :=
  let read := readLines ⟨none, [], [], [], []⟩ (lines source.text)
  { path := source.path
    extension := source.extension
    types :=
      [{ name := read.className.getD (stemOf source.path)
         kind := .classType
         baseTypes := read.baseTypes
         interfaces := []
         members := read.members
         enumValues := []
         markers := read.classMarkers
         routeBase := [] }]
    endpoints := []
    category := [] }

end SourceAtlas.Script
