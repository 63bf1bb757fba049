import SourceAtlas.Header.Basic

/-!
# TypeScript member headers

A TypeScript member starts with modifiers and its name; the type follows a colon, after the
parameter list if there is one.
-/

namespace SourceAtlas.TypeScript

def modifierWords : List Text :=
  ["public", "private", "protected", "readonly", "static", "async", "abstract", "override",
    "declare", "accessor", "get", "set"].map String.toList

/-- Words that start a statement and no member. -/
def statementWords : List Text :=
  ["if", "for", "while", "switch", "return", "else", "case", "default", "import", "export",
    "const", "let", "var", "function", "new", "throw", "try", "catch", "finally", "type",
    "interface", "class", "enum", "await", "yield", "super", "this"].map String.toList

def parameterWords : List Text :=
  ["public", "private", "protected", "readonly", "override"].map String.toList

def isPlainStart (c : Char) : Bool :=
  c == '$' || isNameStart c

def isMemberStart (c : Char) : Bool :=
  c == '#' || isPlainStart c

def isNameChar (c : Char) : Bool :=
  c == '$' || isWord c

def splitName? (opens : Char → Bool) (text : Text) : Option (Text × Text) :=
  match text with
  | c :: rest => if opens c then some (c :: rest.takeWhile isNameChar, rest.dropWhile isNameChar)
    else none
  | [] => none

/-- Drops a `?` or `!` with the blanks before it. -/
def dropMark (text : Text) : Text :=
  match trimLeft text with
  | '?' :: rest => rest
  | '!' :: rest => rest
  | _ => text

/-- The texts after each `>` that comes before a parenthesis. -/
def typeParameterEnds : Text → List Text
  | [] => []
  | c :: rest =>
    if c = '(' || c = ')' then []
    else if c = '>' then rest :: typeParameterEnds rest
    else typeParameterEnds rest

/-- The places where the type parameters in front of a text may end, blanks dropped; the text itself
when it has none. -/
def afterTypeParameters (text : Text) : List Text :=
  match trimLeft text with
  | '<' :: rest => (typeParameterEnds rest).map trimLeft
  | other => [other]

def terminatorAt? : Text → Option Terminator
  | [] => some .none
  | '(' :: _ => some .paren
  | ':' :: _ => some .colon
  | '=' :: '>' :: _ => some .arrow
  | '=' :: _ => some .assign
  | ';' :: _ => some .semicolon
  | ',' :: _ => some .comma
  | '{' :: _ => some .brace
  | _ => none

/-- The first place after the type parameters at which a terminator stands. -/
def terminated? (text : Text) : Option (Terminator × Text) :=
  (afterTypeParameters (dropMark text)).findSome? fun rest =>
    (terminatorAt? rest).map (·, rest)

/-- The ends of a text after its first modifiers, the longest run of modifiers first. -/
def modifierEnds (text : Text) : List Text :=
  match dropWord? modifierWords text with
  | none => [text]
  | some rest => if rest.length < text.length then modifierEnds rest ++ [text] else [text]
termination_by text.length

/-- The type written after a colon that follows a parameter list closed at `close`. -/
def resultType (text : Text) (close : Nat) : Text :=
  let after := trimLeft (text.drop (close + 1))
  match after with
  | ':' :: rest => readType text (text.length - (trimLeft rest).length)
  | _ => []

def tokenize (signature : Text) : Option Header :=
  (modifierEnds signature).findSome? fun named => do
    let (name, after) ← splitName? isMemberStart named
    let (terminator, rest) ← terminated? after
    let nameStart := signature.length - named.length
    let position := signature.length - rest.length
    let declared :=
      match terminator with
      | .paren =>
        match findParen signature position with
        | some close => resultType signature close
        | none => []
      | .colon => readType signature (position + 1)
      | _ => []
    some
      { name
        declaredType := typeOrUnknown declared
        terminator
        nameStart
        modifiers := words (signature.take nameStart)
        openParen := if terminator = .paren then some position else none }

def closesShape : Text → Bool
  | [] => true
  | '(' :: _ => true
  | ':' :: _ => true
  | ';' :: _ => true
  | '=' :: '=' :: _ => false
  | '=' :: '>' :: _ => false
  | '=' :: _ => true
  | _ => false

def isMemberCandidate (line : Text) (interfaceLike : Bool) : Bool :=
  if interfaceLike then
    line.contains '(' ||
      (match splitName? isPlainStart line with
        | some (_, after) => (trimLeft (dropMark after)).head? == some ':'
        | none => false) ||
      (line.contains ' ' && (line.contains ';' || line.getLast? == some '}'))
  else if (dropWord? modifierWords line).isSome then true
  else
    match splitName? isMemberStart line with
    | none => false
    | some (first, after) =>
      !statementWords.contains first &&
        (afterTypeParameters (dropMark after)).any closesShape

/-- The signature of a method whose parameter list closes at `close`. -/
def finishMethod (text : Text) (close : Nat) (interfaceLike : Bool) : Text :=
  let signature := trimRight (text.take (close + 1))
  let result := resultType text close
  let signature := if result.isEmpty then signature else signature ++ ": ".toList ++ result
  if interfaceLike && (trimRight (text.drop (close + 1))).getLast? == some ';' then
    signature ++ [';']
  else signature

def finishValue (text : Text) (header : Header) : Text :=
  let stop := header.nameStart + header.name.length
  let head := text.take stop
  let head := match trimLeft (text.drop stop) with
    | '?' :: _ => head ++ ['?']
    | '!' :: _ => head ++ ['!']
    | _ => head
  if header.terminator = .colon && header.declaredType != unknownType then
    head ++ ": ".toList ++ header.declaredType
  else trimRight head

def memberKind (header : Header) : MemberKind :=
  if header.name == "constructor".toList then .constructor
  else if header.terminator = .paren then .method
  else if header.modifiers.contains "readonly".toList then .readonly
  else if header.terminator = .colon then .property
  else .field

/-- Drops modifiers from the front of a parameter's words, but never its last word. -/
def dropParameterWords : List Text → List Text
  | first :: second :: rest =>
    if parameterWords.contains first then dropParameterWords (second :: rest)
    else first :: second :: rest
  | short => short

/-- Reads `@D() name?: T = value`. -/
def parameter? (text : Text) : Option Parameter :=
  let (markers, rest) := peelDecorators text
  let rest := match splitTopLevel ['='] rest with
    | some (first :: _) => first
    | _ => rest
  let rest := joinWith [' '] (dropParameterWords (words rest))
  let plain := (dropHead? "...".toList rest).getD rest
  (splitName? isPlainStart plain).bind fun (name, after) =>
    let after := match trimLeft after with
      | '?' :: more => trimLeft more
      | other => other
    match after with
    | [] => some ⟨name, unknownType, markers⟩
    | ':' :: type =>
      if type.isEmpty then none else some ⟨name, typeOrUnknown (squeeze type), markers⟩
    | _ => none

end SourceAtlas.TypeScript
