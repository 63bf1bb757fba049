import SourceAtlas.Text.Basic

/-!
# Brackets and quotes

Two scanners over text with brackets and quoted parts. `splitTopLevel` cuts a text at separators
outside brackets and quotes and refuses unbalanced text; `findClosing` gives the bracket that
closes the one at an offset. Inside quotes a backslash protects the character after it.
-/

namespace SourceAtlas

def isQuote (c : Char) : Bool :=
  c == '\x22' || c == '\x27' || c == '\x60'

def closerOf? : Char → Option Char
  | '(' => some ')'
  | '[' => some ']'
  | '{' => some '}'
  | '<' => some '>'
  | _ => none

def isCloser (c : Char) : Bool :=
  c == ')' || c == ']' || c == '}' || c == '>'

abbrev Segments := Text × List Text

def Segments.push (c : Char) (segments : Segments) : Segments :=
  (c :: segments.1, segments.2)

def Segments.cut (segments : Segments) : Segments :=
  ([], segments.1 :: segments.2)

/-- The segments of a text between top-level separators. `owed` are the closing brackets still to
come, innermost first, and `quote` is the open quote. A `>` that closes nothing is a plain
character. -/
def segmentsFrom (separator : Text) (owed : List Char) (quote : Option Char) :
    Text → Option Segments
  | [] => if owed.isEmpty && quote.isNone then some ([], []) else none
  | c :: rest =>
    match quote with
    | some q =>
      if c = '\\' then
        match rest with
        | [] => none
        | d :: after =>
          (segmentsFrom separator owed (some q) after).map fun s => (s.push d).push c
      else if c = q then (segmentsFrom separator owed none rest).map (·.push c)
      else (segmentsFrom separator owed (some q) rest).map (·.push c)
    | none =>
      if isQuote c then (segmentsFrom separator owed (some c) rest).map (·.push c)
      else
        match closerOf? c with
        | some closer => (segmentsFrom separator (closer :: owed) none rest).map (·.push c)
        | none =>
          if isCloser c then
            match owed with
            | [] =>
              if c = '>' then (segmentsFrom separator [] none rest).map (·.push c) else none
            | closer :: outer =>
              if c = closer then (segmentsFrom separator outer none rest).map (·.push c)
              else if c = '>' then
                (segmentsFrom separator (closer :: outer) none rest).map (·.push c)
              else none
          else if owed.isEmpty && [c] == separator then
            (segmentsFrom separator [] none rest).map (·.cut)
          else (segmentsFrom separator owed none rest).map (·.push c)

def Segments.parts (segments : Segments) : List Text :=
  if segments.2.isEmpty && isBlankText segments.1 then []
  else (segments.1 :: segments.2).map trim

/-- Cuts a text at the separators outside brackets and quotes. There is no result when brackets
or quotes do not balance, and only a separator of one character ever separates. -/
def splitTopLevel (separator text : Text) : Option (List Text) :=
  (segmentsFrom separator [] none text).map Segments.parts

def splitCommas (text : Text) : Option (List Text) :=
  splitTopLevel [','] text

/-- The offset of the closing bracket that brings the depth back to zero. `index` is the offset of
the text at hand. -/
def closingFrom (opener closer : Char) (depth : Int) (quote : Option Char) (index : Nat) :
    Text → Option Nat
  | [] => none
  | c :: rest =>
    match quote with
    | some q =>
      if c = '\\' then
        match rest with
        | [] => none
        | _ :: after => closingFrom opener closer depth (some q) (index + 2) after
      else if c = q then closingFrom opener closer depth none (index + 1) rest
      else closingFrom opener closer depth (some q) (index + 1) rest
    | none =>
      if isQuote c then closingFrom opener closer depth (some c) (index + 1) rest
      else if c = opener then closingFrom opener closer (depth + 1) none (index + 1) rest
      else if c = closer then
        if depth = 1 then some index
        else closingFrom opener closer (depth - 1) none (index + 1) rest
      else closingFrom opener closer depth none (index + 1) rest

/-- The offset of the bracket that closes the one at `start`. -/
def findClosing (text : Text) (start : Nat) (opener closer : Char) : Option Nat :=
  closingFrom opener closer 0 none start (text.drop start)

/-- The offset of the parenthesis that closes the one at `start`. -/
def findParen (text : Text) (start : Nat) : Option Nat :=
  findClosing text start '(' ')'

end SourceAtlas
