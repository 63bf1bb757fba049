import SourceAtlas.TypeText

/-!
# Member headers

A header is what a member's first line says before its body: the name, the declared type, the
modifiers and what ends it.
-/

namespace SourceAtlas

/-- What follows the name of a member. -/
inductive Terminator where
  | paren
  | brace
  | bracket
  | semicolon
  | comma
  | colon
  | arrow
  | assign
  | none
  deriving DecidableEq, Repr

def Terminator.text : Terminator → Text
  | .paren => ['(']
  | .brace => ['{']
  | .bracket => ['[']
  | .semicolon => [';']
  | .comma => [',']
  | .colon => [':']
  | .arrow => ['=', '>']
  | .assign => ['=']
  | .none => []

/-- The parts of a member's header. -/
structure Header where
  name : Text
  declaredType : Text
  terminator : Terminator
  nameStart : Nat
  modifiers : List Text
  openParen : Option Nat
  deriving DecidableEq, Repr

/-- An entry of a parameter list. -/
structure Parameter where
  name : Text
  declaredType : Text
  markers : List Marker
  deriving DecidableEq, Repr

/-- The text as a type, or the unknown type when it is empty. -/
def typeOrUnknown (text : Text) : Text :=
  if text.isEmpty then unknownType else text

/-- The first result of `read` on the ends of a text, from left to right. `read` sees the character
before the end, its offset and the end itself. -/
def searchFrom {α : Type} (read : Option Char → Nat → Text → Option α) (before : Option Char)
    (index : Nat) : Text → Option α
  | [] => none
  | c :: rest =>
    match read before index (c :: rest) with
    | some found => some found
    | none => searchFrom read (some c) (index + 1) rest

def skipBlanks? (text : Text) : Option Text :=
  match text with
  | c :: rest => if isBlank c then some (trimLeft rest) else none
  | [] => none

def dropWord? (choices : List Text) (text : Text) : Option Text :=
  choices.findSome? fun word => (dropHead? word text).bind skipBlanks?

end SourceAtlas
