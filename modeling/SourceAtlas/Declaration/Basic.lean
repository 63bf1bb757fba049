import SourceAtlas.Header.Basic

/-!
# Type headers

The header of a type declaration as it stands in the text: keyword, name and the clauses after the
name.
-/

namespace SourceAtlas

/-- A type header found at some place of a text. `rest` is the text after it. -/
structure TypeHeader where
  keyword : Text
  kind : TypeKind
  name : Text
  bases : Option Text
  interfaces : Option Text
  rest : Text
  deriving DecidableEq, Repr

def skipModifiers (modifiers : List Text) (text : Text) : Text :=
  match dropWord? modifiers text with
  | none => text
  | some rest => if rest.length < text.length then skipModifiers modifiers rest else rest
termination_by text.length

/-- One of the keywords with the blanks after it, its kind and the text after it. -/
def keywordAt? (keywords : List (Text × TypeKind)) (text : Text) :
    Option (Text × TypeKind × Text) :=
  keywords.findSome? fun (keyword, kind) =>
    (dropWord? [keyword] text).map fun rest => (keyword, kind, rest)

/-- The shortest non-empty front of a text after which `stops` holds, and the rest. `stops` sees
the last character of the front and the rest. -/
def clauseUpTo (stops : Char → Text → Bool) : Text → Text × Text
  | [] => ([], [])
  | c :: rest =>
    if stops c rest then ([c], rest)
    else
      let clause := clauseUpTo stops rest
      (c :: clause.1, clause.2)

end SourceAtlas
