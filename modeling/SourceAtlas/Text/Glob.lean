import SourceAtlas.Text.Basic

/-!
# Glob patterns

`*` stands for any run of characters, slashes included, `?` for one character and `[...]` for one
character of a set; `[!...]` is the complement. A bracket that is never closed stands for itself.
-/

namespace SourceAtlas

/-- A piece of a pattern. -/
inductive GlobItem where
  | literal (c : Char)
  | anyChar
  | anyRun
  | oneOf (negated : Bool) (ranges : List (Char × Char))
  deriving DecidableEq, Repr

/-- The ranges of a set: `a-z` is a range, any other character stands for itself. -/
def globRanges : Text → List (Char × Char)
  | a :: '-' :: b :: rest => (a, b) :: globRanges rest
  | a :: rest => (a, a) :: globRanges rest
  | [] => []

/-- The content of a set after its opening bracket, and the rest of the pattern. A closing bracket
that comes first, or right after the `!`, belongs to the content. -/
def globSet? (text : Text) : Option (Bool × Text × Text) :=
  let negated := text.head? == some '!'
  let body := if negated then text.drop 1 else text
  let held := if body.head? == some ']' then 1 else 0
  let content := body.take held ++ (body.drop held).takeWhile (· ≠ ']')
  if content.length < body.length then
    some (negated, content, body.drop (content.length + 1))
  else none

/-- Reads a pattern; `skip` characters of a set are still to be passed over. -/
def globItemsFrom (skip : Nat) : Text → List GlobItem
  | [] => []
  | c :: rest =>
    if 0 < skip then globItemsFrom (skip - 1) rest
    else if c = '*' then .anyRun :: globItemsFrom 0 rest
    else if c = '?' then .anyChar :: globItemsFrom 0 rest
    else if c = '[' then
      match globSet? rest with
      | some (negated, content, after) =>
        .oneOf negated (globRanges content) :: globItemsFrom (rest.length - after.length) rest
      | none => .literal c :: globItemsFrom 0 rest
    else .literal c :: globItemsFrom 0 rest

def globItems (pattern : Text) : List GlobItem :=
  globItemsFrom 0 pattern

/-- Whether a piece that stands for one character stands for this one. -/
def GlobItem.accepts (item : GlobItem) (c : Char) : Bool :=
  match item with
  | .literal d => c == d
  | .anyChar => true
  | .anyRun => false
  | .oneOf negated ranges =>
    negated != ranges.any fun range => decide (range.1 ≤ c) && decide (c ≤ range.2)

/-- Whether some end of a text, the text itself included, satisfies a test. -/
def anyEnd (test : Text → Bool) : Text → Bool
  | [] => test []
  | c :: rest => test (c :: rest) || anyEnd test rest

def globMatchesItems : List GlobItem → Text → Bool
  | [], text => text.isEmpty
  | .anyRun :: items, text => anyEnd (globMatchesItems items) text
  | item :: items, text =>
    match text with
    | [] => false
    | c :: rest => item.accepts c && globMatchesItems items rest

def globMatches (pattern text : Text) : Bool :=
  globMatchesItems (globItems pattern) text

end SourceAtlas
