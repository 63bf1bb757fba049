import SourceAtlas.Body
import SourceAtlas.Endpoint
import SourceAtlas.EnumConstant
import SourceAtlas.Member.Scan

/-!
# Brace languages

A C# or TypeScript source is scanned declaration by declaration: the body is cut out, read for
members or constants, and the next declaration is looked for after it.
-/

namespace SourceAtlas

def buildType (dialect : Dialect) (declaration : Declaration) (body : Body) : TypeSummary :=
  { name := declaration.name
    kind := declaration.kind
    baseTypes := declaration.baseTypes
    interfaces := declaration.interfaces
    members := if declaration.kind = .enumeration then []
      else scanMembers dialect declaration.name declaration.kind body.text
    enumValues := if declaration.kind = .enumeration then scanEnumValues dialect body.text else []
    markers := declaration.markers
    routeBase := declaration.routeBase }

def Declaration.body? (declaration : Declaration) (text : Text) : Option Body :=
  extractBody? text declaration.stop (declaration.kind = .typeAlias)

/-- The declarations that have a body and do not start before the end of the one recorded last,
each with its body. `cursor` is that end. -/
def recordedFrom (text : Text) (cursor : Nat) : List Declaration → List (Declaration × Body)
  | [] => []
  | declaration :: rest =>
    if declaration.start < cursor then recordedFrom text cursor rest
    else
      match declaration.body? text with
      | none => recordedFrom text cursor rest
      | some body => (declaration, body) :: recordedFrom text (body.stop + 1) rest

def recordedDeclarations (dialect : Dialect) (text : Text) : List (Declaration × Body) :=
  recordedFrom text 0 (locateDeclarations dialect text)

def scanTypes (dialect : Dialect) (text : Text) : List TypeSummary :=
  (recordedDeclarations dialect text).map fun (declaration, body) =>
    buildType dialect declaration body

def scanBraceSource (dialect : Dialect) (source : Source) : FileSummary :=
  let types := scanTypes dialect source.text
  { path := source.path
    extension := source.extension
    types
    endpoints := types.flatMap dialect.endpoints
    category := [] }

end SourceAtlas
