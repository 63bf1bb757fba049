import SourceAtlas.Bracket
import SourceAtlas.Entries
import SourceAtlas.Text.Case
import SourceAtlas.Text.Word

/-!
# Markers

A marker is a bracketed attribute such as `[Route("x")]` or a decorator such as `@Get(':id')`. The
module reads their argument lists and peels the markers off the front of a text.
-/

namespace SourceAtlas

/-- The content of a string literal, with an optional `@` or `$` in front of a double quote. -/
def unquote? (value : Text) : Option Text :=
  let value := trim value
  let value := if startsWith "@\"".toList value || startsWith "$\"".toList value
    then value.drop 1 else value
  match value with
  | q :: rest =>
    if isQuote q && !rest.isEmpty && rest.getLast? == some q then some rest.dropLast else none
  | [] => none

/-- The arguments of a marker: values under their names or positions, or the raw text of a list
that does not come apart. -/
inductive Arguments where
  | listed (entries : Entries Text Text)
  | raw (text : Text)
  deriving DecidableEq, Repr

/-- A `[Name(...)]` or `@Name(...)` marker. -/
structure Marker where
  name : Text
  arguments : Arguments
  text : Text
  deriving DecidableEq, Repr

/-- Key and value of an argument written `key = value` or `key: value`. The operators `==` and
`=>` name nothing. -/
def namedArgument? (part : Text) : Option (Text × Text) :=
  match part with
  | c :: _ =>
    if isNameStart c then
      let key := part.takeWhile isWord
      match trimLeft (part.drop key.length) with
      | '=' :: '=' :: _ => none
      | '=' :: '>' :: _ => none
      | d :: rest =>
        let value := trim rest
        if (d = '=' ∨ d = ':') ∧ value ≠ [] then some (key, value) else none
      | [] => none
    else none
  | [] => none

/-- Files the parts of an argument list: a named one under its key, any other under the number of
positional parts before it. -/
def fileArguments (position : Nat) (entries : Entries Text Text) :
    List Text → Entries Text Text
  | [] => entries
  | part :: rest =>
    match namedArgument? part with
    | some (key, value) => fileArguments position (Entries.put key value entries) rest
    | none =>
      fileArguments (position + 1) (Entries.put (natText position) part entries) rest

/-- Reads an argument list. A list that is unbalanced or has an empty part stays raw text. -/
def Arguments.parse (text : Text) : Arguments :=
  let text := trim text
  if text.isEmpty then .listed []
  else
    match splitCommas text with
    | none => .raw text
    | some parts =>
      if parts.any (·.isEmpty) then .raw text else .listed (fileArguments 0 [] parts)

/-- The first string literal among the positional values from `position` on. At most `fuel` values
are looked at. -/
def positionalLiteral? (entries : Entries Text Text) : Nat → Nat → Option Text
  | 0, _ => none
  | fuel + 1, position =>
    match entries.lookup (natText position) with
    | none => none
    | some value =>
      match unquote? value with
      | some literal => some literal
      | none => positionalLiteral? entries fuel (position + 1)

/-- The first positional string literal, else the first one under one of the names. Letter case
does not matter in names. -/
def Marker.literal? (marker : Marker) (names : List Text) : Option Text :=
  match marker.arguments with
  | .raw _ => none
  | .listed entries =>
    match positionalLiteral? entries (entries.length + 1) 0 with
    | some literal => some literal
    | none =>
      let wanted := names.map lower
      entries.findSome? fun entry =>
        if wanted.contains (lower entry.1) then unquote? entry.2 else none

/-- Words that may stand before a colon and say what an attribute applies to. -/
def markerTargets : List Text :=
  ["return", "assembly", "field", "property", "method", "param", "type"].map String.toList

/-- Drops a leading target such as `return:`. -/
def dropTarget (text : Text) : Text :=
  (markerTargets.findSome? fun target => do
    let after ← dropHead? target text
    match trimLeft after with
    | ':' :: rest => some (trimLeft rest)
    | _ => none).getD text

def isDottedWord (c : Char) : Bool :=
  c == '.' || isWord c

def dropNameEnd (ending name : Text) : Text :=
  if !ending.isEmpty && endsWith ending name && name != ending then dropEnd ending.length name
  else name

/-- The text between the parentheses that follow a name; nothing stands for an empty list. -/
def invocationArguments? (after : Text) : Option Text :=
  match trimLeft after with
  | [] => some []
  | '(' :: rest => if rest.getLast? == some ')' then some rest.dropLast else none
  | _ => none

/-- Builds a marker from `Name` or `Name(arguments)`. The marker's name is the last part of a
dotted one, without the given ending. -/
def Marker.build? (ending raw : Text) : Option Marker :=
  let raw := trim raw
  let text := dropTarget raw
  match text with
  | c :: _ =>
    if isNameStart c then
      let dotted := text.takeWhile isDottedWord
      (invocationArguments? (text.drop dotted.length)).map fun arguments =>
        { name := dropNameEnd ending (afterLast '.' dotted)
          arguments := Arguments.parse arguments
          text := raw }
    else none
  | [] => none

/-- Reads one `[A, B(x)]` group and the blanks after it. -/
def readBracketGroup? (text : Text) : Option (List Marker × Text) :=
  match text with
  | '[' :: _ => do
    let close ← findClosing text 0 '[' ']'
    let parts ← splitCommas ((text.take close).drop 1)
    if parts.isEmpty then none
    else
      let markers ← parts.mapM (Marker.build? "Attribute".toList)
      some (markers, trimLeft (text.drop (close + 1)))
  | _ => none

/-- The length of `Name` or `Name(arguments)` at the start of a text. Only spaces and tabs may stand
before the parenthesis. -/
def invocationLength? (text : Text) : Option Nat :=
  match text with
  | c :: _ =>
    if isNameStart c then
      let nameLength := (text.takeWhile isDottedWord).length
      let gap := ((text.drop nameLength).takeWhile fun d => d == ' ' || d == '\t').length
      match text.drop (nameLength + gap) with
      | '(' :: _ => (findParen text (nameLength + gap)).map (· + 1)
      | _ => some nameLength
    else none
  | [] => none

/-- Reads one `@Name(arguments)` decorator and the blanks after it. -/
def readDecorator? (text : Text) : Option (List Marker × Text) :=
  match text with
  | '@' :: rest => do
    let length ← invocationLength? rest
    let marker ← Marker.build? [] (rest.take length)
    some ([marker], trimLeft (rest.drop length))
  | _ => none

/-- Reads markers off the front of a text for as long as `read` gives some. -/
def peelWhile (read : Text → Option (List Marker × Text)) (text : Text) : List Marker × Text :=
  match read text with
  | none => ([], text)
  | some (markers, rest) =>
    if rest.length < text.length then
      let more := peelWhile read rest
      (markers ++ more.1, more.2)
    else (markers, rest)
termination_by text.length

/-- Splits the leading `[A][B(x), C]` groups off a text. -/
def peelBracketed (text : Text) : List Marker × Text :=
  peelWhile readBracketGroup? (trimLeft text)

/-- Splits the leading `@Name(arguments)` decorators off a text. -/
def peelDecorators (text : Text) : List Marker × Text :=
  peelWhile readDecorator? (trimLeft text)

end SourceAtlas
