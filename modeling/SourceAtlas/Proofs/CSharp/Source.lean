import SourceAtlas.Parser.Brace
import SourceAtlas.Proofs.Body
import SourceAtlas.Proofs.CSharp.Tokenize
import SourceAtlas.Proofs.Text.Lines

/-!
# C# sources as they are written

Descriptions of types, the text they are written as, and the summary a scan is to give of them.
-/

namespace SourceAtlas.CSharp

/-! ## Routes -/

inductive Verb where
  | get
  | post
  | put
  | delete
  | patch
  | options
  | head

def Verb.method : Verb → Text
  | .get => "GET".toList
  | .post => "POST".toList
  | .put => "PUT".toList
  | .delete => "DELETE".toList
  | .patch => "PATCH".toList
  | .options => "OPTIONS".toList
  | .head => "HEAD".toList

def Verb.name : Verb → Text
  | .get => "HttpGet".toList
  | .post => "HttpPost".toList
  | .put => "HttpPut".toList
  | .delete => "HttpDelete".toList
  | .patch => "HttpPatch".toList
  | .options => "HttpOptions".toList
  | .head => "HttpHead".toList

def isTemplateChar (c : Char) : Bool :=
  isAlphanumeric c || "/-\x7b\x7d".toList.contains c

/-- A route template: letters, digits, slashes, dashes and holes in braces. -/
structure Template where
  text : Text
  chars : text.all isTemplateChar = true
  paired : openAfter 0 text = some 0

/-- A verb with a route, as it marks a method. -/
structure VerbMarker where
  verb : Verb
  template : Template

namespace VerbMarker

def argument (mark : VerbMarker) : Text :=
  '\x22' :: (mark.template.text ++ ['\x22'])

def inner (mark : VerbMarker) : Text :=
  mark.verb.name ++ '(' :: (mark.argument ++ [')'])

def text (mark : VerbMarker) : Text :=
  '[' :: (mark.inner ++ [']'])

def marker (mark : VerbMarker) : Marker where
  name := mark.verb.name
  arguments := .listed [(natText 0, mark.argument)]
  text := mark.inner

end VerbMarker

def markRows (mark? : Option VerbMarker) : List Text :=
  (mark?.map (·.text)).toList

/-! ## Members -/

def typeWords : List Text :=
  typeKeywords.map (·.1)

/-- The type of a member: neither a modifier nor the word that declares a type. -/
structure ValueType where
  expr : TypeExpr
  not_modifier : expr.text ∉ modifierWords
  not_typeWord : expr.text ∉ typeWords

structure ParameterSource where
  type : TypeExpr
  name : Identifier

def ParameterSource.text (parameter : ParameterSource) : Text :=
  parameter.type.text ++ ' ' :: parameter.name.text

def parameterText (parameters : List ParameterSource) : Text :=
  joinWith ", ".toList (parameters.map (·.text))

/-- What makes a member a method, a property or a field. -/
inductive MemberForm where
  | method (mark : Option VerbMarker) (parameters : List ParameterSource)
  | property
  | field

def publicModifier : Modifier :=
  ⟨"public".toList, by decide⟩

structure MemberSource where
  type : ValueType
  name : Identifier
  form : MemberForm

namespace MemberSource

def opening (member : MemberSource) : Text :=
  memberLead [publicModifier] member.type.expr ++ member.name.text

def ending (member : MemberSource) : Text :=
  match member.form with
  | .method _ parameters => '(' :: (parameterText parameters ++ [')'])
  | .property => " \x7b get; set; \x7d".toList
  | .field => [';']

def headerRow (member : MemberSource) : Text :=
  member.opening ++ member.ending

def signature (member : MemberSource) : Text :=
  match member.form with
  | .field => member.opening
  | _ => member.headerRow

def mark? (member : MemberSource) : Option VerbMarker :=
  match member.form with
  | .method mark _ => mark
  | _ => none

def blockRows (member : MemberSource) : List Text :=
  match member.form with
  | .method .. => [['{'], ['}']]
  | _ => []

def rows (member : MemberSource) : List Text :=
  markRows member.mark? ++ member.headerRow :: member.blockRows

def markers (member : MemberSource) : List Marker :=
  (member.mark?.map (·.marker)).toList

def kind (member : MemberSource) : MemberKind :=
  match member.form with
  | .method .. => .method
  | .property => .property
  | .field => .field

def summary (member : MemberSource) : Member where
  name := member.name.text
  kind := member.kind
  declaredType := member.type.expr.text
  signature := member.signature
  markers := member.markers

end MemberSource

/-! ## Types -/

structure Digits where
  text : Text
  ne_nil : text ≠ []
  digits : text.all isDecimalDigit = true

/-- A constant of an enumeration with an optional value. -/
structure ConstantSource where
  name : Identifier
  value : Option Digits

def ConstantSource.text (constant : ConstantSource) : Text :=
  match constant.value with
  | some value => constant.name.text ++ " = ".toList ++ value.text
  | none => constant.name.text

def ConstantSource.row (constant : ConstantSource) : Text :=
  constant.text ++ [',']

/-- What stands between the braces of a type. -/
inductive TypeContent where
  | classBody (members : List MemberSource)
  | recordBody (members : List MemberSource)
  | enumBody (constants : List ConstantSource)

/-- A base type. The word `where` would end the list of base types. -/
structure BaseType where
  expr : TypeExpr
  not_where : ∀ name ∈ expr.names, name.text ≠ "where".toList

def baseList (bases : List BaseType) : Text :=
  joinWith ", ".toList (bases.map (·.expr.text))

def clauseText (bases : List BaseType) : Text :=
  if bases.isEmpty then [] else " : ".toList ++ baseList bases

structure TypeSource where
  name : Identifier
  bases : List BaseType
  content : TypeContent

/-- How sources are laid out: what stands before an opening brace, and the blanks in front of the
lines of a body. -/
structure Layout where
  braceBelow : Bool
  indent : Nat

def Layout.gap (layout : Layout) : Char :=
  if layout.braceBelow then '\n' else ' '

def indentRows (indent : Nat) (rows : List Text) : List Text :=
  rows.map (List.replicate indent ' ' ++ ·)

namespace TypeSource

def keyword (type : TypeSource) : Text :=
  match type.content with
  | .classBody _ => "class".toList
  | .recordBody _ => "record".toList
  | .enumBody _ => "enum".toList

def kind (type : TypeSource) : TypeKind :=
  match type.content with
  | .classBody _ => .classType
  | .recordBody _ => .record
  | .enumBody _ => .enumeration

def members (type : TypeSource) : List MemberSource :=
  match type.content with
  | .classBody members => members
  | .recordBody members => members
  | .enumBody _ => []

def constants (type : TypeSource) : List ConstantSource :=
  match type.content with
  | .enumBody constants => constants
  | _ => []

/-- The lines between the braces, without their indentation. -/
def rows (type : TypeSource) : List Text :=
  type.members.flatMap (·.rows) ++ type.constants.map (·.row)

def header (type : TypeSource) : Text :=
  "public ".toList ++ type.keyword ++ ' ' :: (type.name.text ++ clauseText type.bases)

def text (layout : Layout) (type : TypeSource) : Text :=
  type.header ++ layout.gap :: '{' :: '\n' ::
    (joinLines (indentRows layout.indent type.rows) ++ ['}', '\n'])

/-- The members that are reported: constructors and private names are left out. -/
def reported (type : TypeSource) : List MemberSource :=
  type.members.filter fun member => !isSuppressed type.name.text member.name.text

def routeBase (type : TypeSource) : Text :=
  Dialect.csharp.routeBase type.kind type.name.text []

def summary (type : TypeSource) : TypeSummary where
  name := type.name.text
  kind := type.kind
  baseTypes := type.bases.map (·.expr.text)
  interfaces := []
  members := type.reported.map (·.summary)
  enumValues := type.constants.map (·.text)
  markers := []
  routeBase := type.routeBase

/-- HTTP method, route, container and handler of the endpoints of a type. -/
def endpoints (type : TypeSource) : List (Text × Text × Text × Text) :=
  type.reported.filterMap fun member => member.mark?.map fun mark =>
    (mark.verb.method, composeRoute type.routeBase mark.template.text, type.name.text,
      member.name.text)

end TypeSource

end SourceAtlas.CSharp
