import SourceAtlas.Text.Basic

/-!
# Bodies

The block in braces that follows a header. Braces in strings and comments count like any other.
-/

namespace SourceAtlas

/-- Offsets of the braces of a body and the text between them. -/
structure Body where
  start : Nat
  stop : Nat
  text : Text
  deriving DecidableEq, Repr

/-- The text up to the brace that closes a block; `depth` inner blocks are open. -/
def blockText? (depth : Nat) : Text → Option Text
  | [] => none
  | c :: rest =>
    if c = '{' then (blockText? (depth + 1) rest).map (c :: ·)
    else if c = '}' then
      match depth with
      | 0 => some []
      | outer + 1 => (blockText? outer rest).map (c :: ·)
    else (blockText? depth rest).map (c :: ·)

def bridgesToBody (isAlias : Bool) (gap : Text) : Bool :=
  if isAlias then trim gap == [] || trim gap == ['='] else !(gap.contains ';' || gap.contains '}')

/-- The body that opens at the first brace at or after `offset`. There is none when the header
ended before, or when the braces do not balance. -/
def extractBody? (text : Text) (offset : Nat) (isAlias : Bool) : Option Body :=
  let gap := (text.drop offset).takeWhile (· ≠ '{')
  let start := offset + gap.length
  match text.drop start with
  | _ :: rest =>
    if bridgesToBody isAlias gap then
      (blockText? 0 rest).map fun inner => ⟨start, start + inner.length + 1, inner⟩
    else none
  | [] => none

end SourceAtlas
