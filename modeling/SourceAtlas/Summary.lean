import SourceAtlas.Marker

/-!
# Summaries

What a scan learns about a source: the types it declares, their members and their HTTP endpoints.
-/

namespace SourceAtlas

/-- The text that stands for a type nobody wrote. -/
def unknownType : Text :=
  "unknown".toList

/-- A source file as it is handed to a parser. -/
structure Source where
  path : Text
  extension : Text
  text : Text
  deriving DecidableEq, Repr

/-- Kinds of members. A plug-in parser may use labels of its own. -/
inductive MemberKind where
  | method
  | property
  | field
  | readonly
  | signal
  | constructor
  | custom (label : Text)
  deriving DecidableEq, Repr

/-- Kinds of types. A plug-in parser may use labels of its own. -/
inductive TypeKind where
  | classType
  | interface
  | enumeration
  | record
  | typeAlias
  | custom (label : Text)
  deriving DecidableEq, Repr

def MemberKind.label : MemberKind → Text
  | .method => "method".toList
  | .property => "property".toList
  | .field => "field".toList
  | .readonly => "readonly".toList
  | .signal => "signal".toList
  | .constructor => "constructor".toList
  | .custom label => label

def MemberKind.ofLabel (label : Text) : MemberKind :=
  ([.method, .property, .field, .readonly, .signal, .constructor].find?
    (·.label == label)).getD (.custom label)

def TypeKind.label : TypeKind → Text
  | .classType => "class".toList
  | .interface => "interface".toList
  | .enumeration => "enum".toList
  | .record => "record".toList
  | .typeAlias => "type-alias".toList
  | .custom label => label

def TypeKind.ofLabel (label : Text) : TypeKind :=
  ([.classType, .interface, .enumeration, .record, .typeAlias].find?
    (·.label == label)).getD (.custom label)

def TypeKind.isInterfaceLike : TypeKind → Bool
  | .interface => true
  | .typeAlias => true
  | _ => false

/-- A member declared in the body of a type. -/
structure Member where
  name : Text
  kind : MemberKind
  declaredType : Text
  signature : Text
  markers : List Marker
  deriving DecidableEq, Repr

/-- A type declared in a source. -/
structure TypeSummary where
  name : Text
  kind : TypeKind
  baseTypes : List Text
  interfaces : List Text
  members : List Member
  enumValues : List Text
  markers : List Marker
  routeBase : Text
  deriving DecidableEq, Repr

/-- An HTTP endpoint served by a method. -/
structure Endpoint where
  route : Text
  httpMethod : Text
  container : Text
  handler : Text
  payloads : List Text
  signature : Text
  deriving DecidableEq, Repr

/-- Everything a scan learned about one file. -/
structure FileSummary where
  path : Text
  extension : Text
  types : List TypeSummary
  endpoints : List Endpoint
  category : Text
  deriving DecidableEq, Repr

/-- A summary of a file in which nothing was found. -/
def FileSummary.blank (path extension : Text) : FileSummary :=
  { path, extension, types := [], endpoints := [], category := [] }

/-- A file counts as parsed when it declares a type. -/
def FileSummary.isParsed (file : FileSummary) : Bool :=
  !file.types.isEmpty

end SourceAtlas
