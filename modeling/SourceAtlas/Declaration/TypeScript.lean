import SourceAtlas.Declaration.Basic
import SourceAtlas.Header.TypeScript

/-!
# TypeScript type headers

`export class Name<T> extends Base implements IOther` up to the body, an `=`, a semicolon or the
end of the line.
-/

namespace SourceAtlas.TypeScript

def typeModifiers : List Text :=
  ["export", "default", "declare", "abstract", "const"].map String.toList

def typeKeywords : List (Text × TypeKind) :=
  [("class".toList, .classType), ("interface".toList, .interface),
    ("enum".toList, .enumeration), ("type".toList, .typeAlias)]

def stopsClause (c : Char) : Bool :=
  c == '{' || c == ';' || c == '='

/-- Whether a header may end here: the line ends, or a body, an `=` or a semicolon comes next. -/
def closesHeader (rest : Text) : Bool :=
  (rest.takeWhile isBlank).contains '\n' || (trimLeft rest).head?.all stopsClause

/-- The texts after each `>` that comes before a brace or a semicolon. -/
def headerParameterEnds : Text → List Text
  | [] => []
  | c :: rest =>
    if c = '{' || c = '}' || c = ';' then []
    else if c = '>' then rest :: headerParameterEnds rest
    else headerParameterEnds rest

/-- The places at which the clauses may start: after type parameters, the shortest first, or right
after the name. -/
def clauseStarts (text : Text) : List Text :=
  match trimLeft text with
  | '<' :: rest => headerParameterEnds rest ++ [text]
  | _ => [text]

/-- A clause after a word, up to where `stops` holds, and the text after it. When nothing follows
the word but two or more blanks, the last of them is the clause. -/
def clauseAt? (word : Text) (stops : Text → Bool) (text : Text) : Option (Text × Text) := do
  let after ← (skipBlanks? text).bind (dropHead? word)
  let rest ← skipBlanks? after
  if rest.head?.all stopsClause then
    let gap := after.takeWhile isBlank
    if 2 ≤ gap.length then gap.getLast?.map fun blank => ([blank], rest) else none
  else some (clauseUpTo (fun _ => stops) rest)

/-- The `implements` clause. -/
def interfacesAt? (text : Text) : Option (Text × Text) :=
  clauseAt? "implements".toList closesHeader text

/-- The `extends` clause, which ends before an `implements` clause or with the header. -/
def basesAt? (text : Text) : Option (Text × Text) :=
  clauseAt? "extends".toList (fun rest => (interfacesAt? rest).isSome || closesHeader rest) text

/-- The clauses after a name: bases, interfaces and the text after them. -/
def clausesAt? (text : Text) : Option (Option Text × Option Text × Text) :=
  let (bases, afterBases) := match basesAt? text with
    | some (bases, rest) => (some bases, rest)
    | none => (none, text)
  match interfacesAt? afterBases with
  | some (interfaces, rest) => some (bases, some interfaces, rest)
  | none => if bases.isSome || closesHeader text then some (bases, none, afterBases) else none

/-- A type header at the start of a text; `before` is the character in front of it. -/
def typeHeaderAt? (before : Option Char) (text : Text) : Option TypeHeader :=
  if before.all fun c => !(isDottedWord c || c == '$') then do
    let (keyword, kind, after) ← keywordAt? typeKeywords (skipModifiers typeModifiers text)
    let (name, afterName) ← splitName? isPlainStart after
    let (bases, interfaces, rest) ← (clauseStarts afterName).findSome? clausesAt?
    some { keyword, kind, name, bases, interfaces, rest }
  else none

end SourceAtlas.TypeScript
