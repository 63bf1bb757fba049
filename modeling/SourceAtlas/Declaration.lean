import SourceAtlas.Declaration.CSharp
import SourceAtlas.Declaration.TypeScript
import SourceAtlas.Route

/-!
# Declarations

Every type header of a text that begins a statement, in order, with the markers that stand above it.
-/

namespace SourceAtlas

/-- A located type header. `start` and `stop` are the offsets of the header. -/
structure Declaration where
  keyword : Text
  kind : TypeKind
  name : Text
  start : Nat
  stop : Nat
  baseTypes : List Text
  interfaces : List Text
  markers : List Marker
  routeBase : Text
  deriving DecidableEq, Repr

/-- How many lines above a declaration may hold its markers, its own line included. -/
def declarationLookback : Nat := 10

/-- A type header at the start of a text; `before` is the character in front of it. -/
def Dialect.typeHeaderAt? : Dialect → Option Char → Text → Option TypeHeader
  | .csharp => CSharp.typeHeaderAt?
  | .typescript => TypeScript.typeHeaderAt?

/-- The headers of a text with their offsets, none inside another. `skip` characters of the last
header are still to be passed over. -/
def headersFrom (dialect : Dialect) (skip : Nat) (before : Option Char) (index : Nat) :
    Text → List (Nat × Nat × TypeHeader)
  | [] => []
  | c :: rest =>
    if 0 < skip then headersFrom dialect (skip - 1) (some c) (index + 1) rest
    else
      match dialect.typeHeaderAt? before (c :: rest) with
      | some header =>
        let length := (c :: rest).length - header.rest.length
        (index, index + length, header) ::
          headersFrom dialect (length - 1) (some c) (index + 1) rest
      | none => headersFrom dialect 0 (some c) (index + 1) rest

/-- The marker lines directly above, nearest first. Blank lines are free, comment lines use up the
budget, and any other line ends the block. -/
def markerLinesAbove (dialect : Dialect) : Nat → List Text → List (List Marker)
  | 0, _ => []
  | _, [] => []
  | less + 1, raw :: rest =>
    let line := trim raw
    if line.isEmpty then markerLinesAbove dialect (less + 1) rest
    else if dialect.isComment line then markerLinesAbove dialect less rest
    else
      let peeled := dialect.peel line
      if peeled.1.isEmpty || !peeled.2.isEmpty then []
      else peeled.1 :: markerLinesAbove dialect less rest

/-- The markers of a declaration: those of the lines above, then those on its own line. -/
def declarationMarkers (dialect : Dialect) (above sameLine : Text) : List Marker :=
  let budget := if isBlankText sameLine then declarationLookback else declarationLookback - 1
  (markerLinesAbove dialect budget (lines above).reverse).reverse.flatten ++
    (dialect.peel sameLine).1

/-- The declaration for a header, when the header begins a statement. -/
def declarationAt? (dialect : Dialect) (text : Text) :
    Nat × Nat × TypeHeader → Option Declaration
  | (start, stop, header) =>
    let before := text.take start
    let sameLine := afterLast '\n' before
    if dialect.startsStatement sameLine then
      let markers := declarationMarkers dialect (dropEnd sameLine.length before) sameLine
      some
        { keyword := header.keyword
          kind := header.kind
          name := header.name
          start
          stop
          baseTypes := (header.bases.map splitTypeList).getD []
          interfaces := (header.interfaces.map splitTypeList).getD []
          markers
          routeBase := dialect.routeBase header.kind header.name markers }
    else none

def locateDeclarations (dialect : Dialect) (text : Text) : List Declaration :=
  (headersFrom dialect 0 none 0 text).filterMap (declarationAt? dialect text)

end SourceAtlas
