import SourceAtlas.Dialect

/-!
# Type expressions

Types are kept as they are written. The module compares them, splits lists of them and finds where
one ends.
-/

namespace SourceAtlas

/-- Drops nullability and array marks from the end of a reversed type. -/
def dropTypeMarks : Text → Text
  | ']' :: '[' :: rest => dropTypeMarks rest
  | '?' :: rest => dropTypeMarks rest
  | '!' :: rest => dropTypeMarks rest
  | text => text

/-- A type without nullability, array marks and a `System.` qualifier. -/
def normaliseType (text : Text) : Text :=
  let bare := (dropTypeMarks (trim text).reverse).reverse
  (dropHead? "System.".toList bare).getD bare

def Dialect.isPrimitive (dialect : Dialect) (type : Text) : Bool :=
  dialect.primitiveTypes.contains (normaliseType type)

/-- The types of a comma-separated list, with their blanks squeezed. A list that does not balance
is cut at every comma. -/
def splitTypeList (text : Text) : List Text :=
  let parts := (splitCommas (trim text)).getD (splitOn ',' text)
  (parts.filter fun part => !isBlankText part).map squeeze

/-- The front of a reversed text that belongs to one type token. Inside angle brackets everything
belongs to it; outside, only letters, digits and a few marks do, and `=>` ends it. -/
def typeTokenFront (depth : Nat) : Text → Text
  | [] => []
  | '>' :: '=' :: _ => []
  | '>' :: rest => '>' :: typeTokenFront (depth + 1) rest
  | '<' :: rest =>
    match depth with
    | 0 => []
    | outer + 1 => '<' :: typeTokenFront outer rest
  | c :: rest =>
    if depth = 0 && !(isAlphanumeric c || "_?[].@".toList.contains c) then []
    else c :: typeTokenFront depth rest

def trailingType (text : Text) : Text :=
  (typeTokenFront 0 text.reverse).reverse

/-- The part of a text that belongs to a type written after a colon. It ends at a top-level `;`,
`,`, closing bracket, `=` that is not `=>`, or `{` after some type. `before` is the character
before the text and `started` says whether some type was seen. -/
def typeFront (depth : Nat) (quote : Option Char) (before : Option Char) (started : Bool) :
    Text → Text
  | [] => []
  | c :: rest =>
    let next (depth : Nat) (quote : Option Char) :=
      c :: typeFront depth quote (some c) (started || !isBlank c) rest
    match quote with
    | some q => next depth (if c = q then none else some q)
    | none =>
      if isQuote c then next depth (some c)
      else if c = '<' || c = '(' || c = '[' then next (depth + 1) none
      else if (c = '>' && before != some '=') || c = ')' || c = ']' then
        if depth = 0 then [] else next (depth - 1) none
      else if c = '{' then
        if depth = 0 && started then [] else next (depth + 1) none
      else if c = '}' then
        if depth = 0 then [] else next (depth - 1) none
      else if depth = 0 && (c = ';' || c = ',') then []
      else if depth = 0 && c = '=' && rest.head? != some '>' then []
      else next depth none

/-- The type written from offset `start` on, with its blanks squeezed. -/
def readType (text : Text) (start : Nat) : Text :=
  squeeze (typeFront 0 none (text.take start).getLast? false (text.drop start))

end SourceAtlas
