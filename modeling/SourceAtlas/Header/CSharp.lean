import SourceAtlas.Header.Basic

/-!
# C# member headers

The name of a C# member is the first identifier that is followed by a parameter list, a body, an
assignment or the end; the type is the token before it. Indexers and operators are looked for
first.
-/

namespace SourceAtlas.CSharp

def modifierWords : List Text :=
  ["public", "private", "protected", "internal", "static", "virtual", "override", "abstract",
    "sealed", "async", "readonly", "const", "new", "extern", "unsafe", "volatile", "event",
    "partial", "required"].map String.toList

def accessWords : List Text :=
  ["public", "private", "protected", "internal"].map String.toList

def parameterWords : List Text :=
  ["this", "ref", "out", "in", "params", "scoped", "readonly"].map String.toList

/-- Splits a signature at its first top-level `=>` or `=` and tells which of them it is. The
operators `==`, `!=`, `<=` and `>=` do not count. -/
def assignmentFrom (depth : Nat) (quote : Option Char) (before : Option Char) :
    Text → Text × Terminator
  | [] => ([], .none)
  | c :: rest =>
    let next (depth : Nat) (quote : Option Char) :=
      let split := assignmentFrom depth quote (some c) rest
      (c :: split.1, split.2)
    match quote with
    | some q =>
      if c = '\\' then
        match rest with
        | [] => ([c], .none)
        | d :: after =>
          let split := assignmentFrom depth (some q) (some d) after
          (c :: d :: split.1, split.2)
      else if c = q then next depth none
      else next depth (some q)
    | none =>
      if c = '\x22' || c = '\x27' then next depth (some c)
      else if c = '(' || c = '[' || c = '{' then next (depth + 1) none
      else if c = ')' || c = ']' || c = '}' then next (depth - 1) none
      else if c = '=' && depth = 0 then
        match rest with
        | '>' :: _ => ([], .arrow)
        | '=' :: after =>
          let split := assignmentFrom depth none (some '=') after
          (c :: '=' :: split.1, split.2)
        | _ =>
          if before == some '!' || before == some '<' || before == some '>' then next depth none
          else ([], .assign)
      else next depth none

/-- The text before the first top-level `=>` or `=`, and that operator. -/
def splitAssignment (signature : Text) : Text × Terminator :=
  assignmentFrom 0 none none signature

/-- A name found in a header: its text and offset, what follows it and at which offset. -/
structure Named where
  name : Text
  start : Nat
  terminator : Terminator
  terminatorStart : Nat
  deriving DecidableEq, Repr

def opensName (before : Option Char) : Bool :=
  before.all fun c => !(isWord c || c == '@')

/-- An indexer, `this[`. -/
def indexerAt? (before : Option Char) (index : Nat) (text : Text) : Option Named :=
  if opensName before && before != some '.' then do
    let name := "this".toList
    let after ← dropHead? name text
    match trimLeft after with
    | '[' :: rest =>
      some ⟨name, index, .bracket, index + (text.length - rest.length - 1)⟩
    | _ => none
  else none

def isOperatorSymbol (c : Char) : Bool :=
  !(isWord c || isBlank c || c == '(')

/-- An operator overload, `operator +(`. -/
def operatorAt? (before : Option Char) (index : Nat) (text : Text) : Option Named :=
  if opensName before then do
    let after ← dropHead? "operator".toList text
    let symbolAndRest := trimLeft after
    let rest := symbolAndRest.dropWhile isOperatorSymbol
    if rest.length < symbolAndRest.length then
      match trimLeft rest with
      | '(' :: tail =>
        some ⟨text.take (text.length - rest.length), index, .paren,
          index + (text.length - tail.length - 1)⟩
      | _ => none
    else none
  else none

def terminatorAt? : Text → Option Terminator
  | [] => some .none
  | '(' :: _ => some .paren
  | '{' :: _ => some .brace
  | ';' :: _ => some .semicolon
  | '=' :: '>' :: _ => some .arrow
  | '=' :: _ => some .assign
  | _ => none

/-- Whether the character may stand between the angle brackets after a name. -/
def isTypeArgumentChar (c : Char) : Bool :=
  !"()=;{}".toList.contains c

/-- The text after the type arguments that follow a name. Their last `>` is followed by blanks up
to the terminator. -/
def dropTypeArguments? (text : Text) : Option Text :=
  match text with
  | '<' :: rest =>
    let run := rest.takeWhile isTypeArgumentChar
    if (trimRight run).getLast? == some '>' then some (rest.drop run.length) else none
  | _ => some text

/-- A member's name: an identifier, optional type arguments and a terminator. -/
def nameAt? (before : Option Char) (index : Nat) (text : Text) : Option Named :=
  if opensName before then
    let word := if text.head? == some '@' then text.drop 1 else text
    match word with
    | c :: _ =>
      if isNameStart c then do
        let after := word.dropWhile isWord
        let rest ← dropTypeArguments? (trimLeft after)
        let terminator ← terminatorAt? rest
        some ⟨text.take (text.length - after.length), index, terminator,
          index + (text.length - rest.length)⟩
      else none
    | [] => none
  else none

/-- An indexer or operator before the parameter list or body opens. -/
def specialName? (head : Text) : Option Named :=
  let stop := (head.takeWhile fun c => c != '(' && c != '{').length
  match searchFrom indexerAt? none 0 (head.take stop) with
  | some named => some named
  | none => searchFrom operatorAt? none 0 (head.take (stop + 1))

def tokenize (signature : Text) : Option Header :=
  let (head, operator) := splitAssignment signature
  let named? :=
    match specialName? head with
    | some named => some named
    | none => searchFrom nameAt? none 0 head
  named?.map fun named =>
    let terminator := if named.terminator = .none then operator else named.terminator
    let lead := trimRight (signature.take named.start)
    let declared := trailingType lead
    { name := named.name
      declaredType := if modifierWords.contains declared then unknownType
        else typeOrUnknown declared
      terminator
      nameStart := named.start
      modifiers := (words lead).filter modifierWords.contains
      openParen := if terminator = .paren then some named.terminatorStart else none }

def isMemberCandidate (line : Text) (interfaceLike : Bool) : Bool :=
  if interfaceLike then
    line.contains '(' || occursIn "\x7b get".toList line || occursIn "\x7bget".toList line ||
      occursIn "\x7b set".toList line ||
      (line.contains ' ' && (line.contains ';' || line.getLast? == some '}'))
  else
    accessWords.any fun word =>
      match dropHead? word line with
      | some (c :: _) => !isWord c
      | some [] => true
      | none => false

/-- Whether the text between two semicolons of a body is an accessor such as `private set`. -/
def isAccessor (text : Text) : Bool :=
  match (words text).reverse with
  | last :: lead =>
    ["get", "set", "init"].any (·.toList == last) && lead.all accessWords.contains
  | [] => false

def holdsAccessorsOnly (body : Text) : Bool :=
  match (splitOn ';' body).reverse with
  | last :: pieces => isBlankText last && !pieces.isEmpty && pieces.all isAccessor
  | [] => false

/-- The signature of a method whose parameter list closes at `close`. -/
def finishMethod (text : Text) (close : Nat) (interfaceLike : Bool) : Text :=
  let signature := trimRight (text.take (close + 1))
  if interfaceLike && (trimLeft (text.drop (close + 1))).head? == some ';' then signature ++ [';']
  else signature

/-- The signature of a member without a parameter list. An indexer keeps its brackets and a
property keeps a body of bare accessors. -/
def finishValue (text : Text) (header : Header) : Text :=
  let start? := if header.terminator = .none then none
    else indexOf? header.terminator.text text (header.nameStart + header.name.length)
  match start? with
  | none => dropEndWhile (fun c => c == ' ' || c == ';') text
  | some start =>
    let upTo (close : Nat) := trimRight (text.take (close + 1))
    match header.terminator with
    | .bracket =>
      match findClosing text start '[' ']' with
      | some close => upTo close
      | none => trimRight (text.take start)
    | .brace =>
      match findClosing text start '{' '}' with
      | some close =>
        if holdsAccessorsOnly ((text.take close).drop (start + 1)) then upTo close
        else trimRight (text.take start)
      | none => trimRight (text.take start)
    | _ => trimRight (text.take start)

def memberKind (header : Header) (markers : List Marker) (accessorFollows : Bool) : MemberKind :=
  if header.modifiers.contains "event".toList ||
      markers.any (fun marker => lower marker.name == "signal".toList) then .signal
  else if header.terminator = .paren then .method
  else if header.modifiers.contains "const".toList || header.modifiers.contains "readonly".toList
    then .readonly
  else if header.terminator = .brace || header.terminator = .arrow ||
      header.terminator = .bracket || accessorFollows then .property
  else .field

/-- Reads `[A] ref T name = value`. -/
def parameter? (text : Text) : Option Parameter :=
  let (markers, rest) := peelBracketed text
  let rest := match splitTopLevel ['='] rest with
    | some (first :: _) => first
    | _ => rest
  match (words rest).dropWhile parameterWords.contains with
  | [] => none
  | first :: others =>
    let rest := joinWith [' '] (first :: others)
    let name := trailingType rest
    if name.isEmpty || name == rest then some ⟨rest, unknownType, markers⟩
    else some ⟨name, typeOrUnknown (trim (dropEnd name.length rest)), markers⟩

end SourceAtlas.CSharp
