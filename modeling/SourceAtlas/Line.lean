import SourceAtlas.Bracket

/-!
# Lines of a body
-/

namespace SourceAtlas

/-- A line up to a `//` outside quotes. -/
def codeFront (quote : Option Char) : Text → Option Text
  | [] => none
  | c :: rest =>
    match quote with
    | some q =>
      if c = '\\' then
        match rest with
        | [] => none
        | d :: after => (codeFront (some q) after).map fun front => c :: d :: front
      else if c = q then (codeFront none rest).map (c :: ·)
      else (codeFront (some q) rest).map (c :: ·)
    | none =>
      if isQuote c then (codeFront (some c) rest).map (c :: ·)
      else if c = '/' && rest.head? == some '/' then some []
      else (codeFront none rest).map (c :: ·)

/-- A line without a trailing `//` comment. -/
def dropLineComment (line : Text) : Text :=
  match codeFront none line with
  | some front => trimRight front
  | none => line

def codeOf (line : Text) : Text :=
  dropLineComment (trim line)

/-- The brace depth after a line; it never falls below zero. -/
def depthAfter (depth : Nat) (line : Text) : Nat :=
  depth + line.count '{' - line.count '}'

end SourceAtlas
