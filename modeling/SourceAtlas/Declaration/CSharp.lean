import SourceAtlas.Declaration.Basic

/-!
# C# type headers

`public class Name<T>(parameters) : Base, IOther` up to the body, a semicolon, a constraint or the
end of the line.
-/

namespace SourceAtlas.CSharp

def typeModifiers : List Text :=
  ["public", "internal", "protected", "private", "static", "abstract", "sealed", "partial",
    "readonly", "unsafe", "new", "file"].map String.toList

def typeKeywords : List (Text × TypeKind) :=
  [("class".toList, .classType), ("interface".toList, .interface),
    ("enum".toList, .enumeration), ("record".toList, .record)]

/-- Whether a word stands at the start of a text and ends there. -/
def standsWord (word text : Text) : Bool :=
  match dropHead? word text with
  | some (c :: _) => !isWord c
  | some [] => true
  | none => false

/-- Whether a header may end after `last`: the line ends, or a body, a semicolon or a constraint
clause comes next. -/
def closesHeader (last : Char) (rest : Text) : Bool :=
  let gap := rest.takeWhile isBlank
  gap.contains '\n' ||
    match trimLeft rest with
    | [] => true
    | '{' :: _ => true
    | ';' :: _ => true
    | next => standsWord "where".toList next && (!gap.isEmpty || !isWord last)

/-- The text after type parameters, which may nest once. -/
def typeParametersEnd (nested : Bool) : Text → Option Text
  | [] => none
  | c :: rest =>
    if c = '<' then if nested then none else typeParametersEnd true rest
    else if c = '>' then if nested then typeParametersEnd false rest else some rest
    else if c = '{' || c = '}' || c = ';' then none
    else typeParametersEnd nested rest

def dropTypeParameters? (text : Text) : Option Text :=
  match trimLeft text with
  | '<' :: rest => typeParametersEnd false rest
  | _ => none

/-- Skips a parameter list up to its first closing parenthesis. -/
def dropParameterList? (text : Text) : Option Text :=
  match trimLeft text with
  | '(' :: rest =>
    match rest.dropWhile (· ≠ ')') with
    | _ :: after => some after
    | [] => none
  | _ => none

/-- The base clause and the text after it. When nothing follows the colon but blanks, the last of
them is the clause. -/
def basesAt? (text : Text) : Option (Text × Text) :=
  match trimLeft text with
  | ':' :: after =>
    let rest := trimLeft after
    if rest.isEmpty || rest.head? == some '{' || rest.head? == some ';' then
      (after.takeWhile isBlank).getLast?.map fun blank => ([blank], rest)
    else some (clauseUpTo closesHeader rest)
  | _ => none

/-- The clauses after a name: bases, or nothing when the header ends there. `last` is the
character before the text. -/
def clausesAt? (last : Char) (text : Text) : Option (Option Text × Text) :=
  match basesAt? text with
  | some (bases, rest) => some (some bases, rest)
  | none => if closesHeader last text then some (none, text) else none

/-- The places at which the clauses may start, the longest header first. -/
def clauseStarts (last : Char) (text : Text) : List (Char × Text) :=
  let generic := (dropTypeParameters? text).toList.map ('>', ·) ++ [(last, text)]
  generic.flatMap fun (last, text) =>
    (dropParameterList? text).toList.map (')', ·) ++ [(last, text)]

def namedHeader? (text : Text) : Option (Text × Option Text × Text) :=
  match text with
  | c :: _ =>
    if isNameStart c then
      let name := text.takeWhile isWord
      (clauseStarts (name.getLast?.getD c) (text.drop name.length)).findSome?
        fun (last, start) => (clausesAt? last start).map fun (bases, rest) => (name, bases, rest)
    else none
  | [] => none

/-- A type header at the start of a text; `before` is the character in front of it. -/
def typeHeaderAt? (before : Option Char) (text : Text) : Option TypeHeader :=
  if before.all fun c => !isDottedWord c then do
    let (keyword, kind, after) ← keywordAt? typeKeywords (skipModifiers typeModifiers text)
    let starts := (dropWord? ["class".toList, "struct".toList] after).toList ++ [after]
    let (name, bases, rest) ← starts.findSome? namedHeader?
    some { keyword, kind, name, bases, interfaces := none, rest }
  else none

end SourceAtlas.CSharp
