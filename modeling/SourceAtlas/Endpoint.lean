import SourceAtlas.Header
import SourceAtlas.Route

/-!
# Endpoints

A method with a verb marker serves an HTTP endpoint. Its payload types are read off its parameters
and its result type.
-/

namespace SourceAtlas

def httpMethods : List Text :=
  ["GET", "POST", "PUT", "DELETE", "PATCH", "OPTIONS", "HEAD"].map String.toList

/-- Whether two characters are the same letter when case is left aside. The letters `i` and `s`
have further forms outside ASCII. -/
def sameLetter (letter c : Char) : Bool :=
  letter.toLower == c.toLower ||
    (letter.toLower == 'i' && (c.toNat == 0x130 || c.toNat == 0x131)) ||
    (letter.toLower == 's' && c.toNat == 0x17F)

def spells (word text : Text) : Bool :=
  word.length == text.length && (word.zip text).all fun (letter, c) => sameLetter letter c

/-- The HTTP method of a C# marker such as `HttpGet`. A line break may follow the name. -/
def csharpVerb? (name : Text) : Option Text :=
  let name := if name.getLast? == some '\n' then name.dropLast else name
  if spells "Http".toList (name.take 4) && httpMethods.any (spells · (name.drop 4)) then
    some (upper (name.drop 4))
  else none

def Dialect.httpVerb? (dialect : Dialect) (marker : Marker) : Option Text :=
  match dialect with
  | .csharp => csharpVerb? marker.name
  | .typescript =>
    let verb := upper marker.name
    if httpMethods.contains verb then some verb else none

def wrappedType? (type : Text) : Option Text :=
  let type := trim type
  let outer := type.takeWhile isDottedWord
  match trimLeft (type.drop outer.length) with
  | '<' :: rest =>
    if !outer.isEmpty && 2 ≤ rest.length && rest.getLast? == some '>' then
      match splitCommas rest.dropLast with
      | some [inner] => some inner
      | _ => none
    else none
  | _ => none

def typeBaseName (type : Text) : Text :=
  afterLast '.' (trim (type.takeWhile (· ≠ '<')))

/-- The payload behind a result type: the argument of one wrapper, or of an action result inside
it. -/
def Dialect.returnedPayload? (dialect : Dialect) (type : Text) : Option Text := do
  let inner ← wrappedType? type
  let inner ← if dialect.actionResults.contains (typeBaseName inner) then wrappedType? inner
    else some inner
  if dialect.actionResults.contains (typeBaseName inner) || dialect.isPrimitive inner then none
  else some inner

def Dialect.isBound (dialect : Dialect) (parameter : Parameter) : Bool :=
  parameter.markers.any fun marker => dialect.bindingMarkers.contains (lower marker.name)

/-- Appends a name that is neither empty, unknown nor there already. -/
def appendPayload (names : List Text) (candidate : Text) : List Text :=
  let candidate := trim candidate
  if candidate.isEmpty || candidate == unknownType || names.contains candidate then names
  else names ++ [candidate]

/-- The parameter types that may be payloads: those of the bound parameters, or without any all
that are not primitive. -/
def Dialect.payloadCandidates (dialect : Dialect) (parameters : List Parameter) : List Text :=
  let bound := parameters.filter dialect.isBound
  if bound.isEmpty then
    (parameters.map (·.declaredType)).filter fun type => !dialect.isPrimitive type
  else bound.map (·.declaredType)

def Dialect.payloads (dialect : Dialect) (member : Member) : List Text :=
  (dialect.payloadCandidates (dialect.parameters member.signature) ++
    (dialect.returnedPayload? member.declaredType).toList).foldl appendPayload []

def Dialect.verbMarker? (dialect : Dialect) (markers : List Marker) : Option (Text × Marker) :=
  markers.findSome? fun marker => (dialect.httpVerb? marker).map (·, marker)

/-- The route a method adds: that of its verb marker, else of its route marker. -/
def methodRoute (verb : Marker) (markers : List Marker) : Text :=
  let own := (verb.literal? routeArguments).getD []
  if own.isEmpty then (markedRoute? routeMarkers markers).getD [] else own

def Dialect.endpoint? (dialect : Dialect) (container base : Text) (member : Member) :
    Option Endpoint :=
  if member.kind = .method then
    (dialect.verbMarker? member.markers).map fun (verb, marker) =>
      { route := composeRoute base (methodRoute marker member.markers)
        httpMethod := verb
        container
        handler := member.name
        payloads := dialect.payloads member
        signature := member.signature }
  else none

def Dialect.endpoints (dialect : Dialect) (type : TypeSummary) : List Endpoint :=
  type.members.filterMap (dialect.endpoint? type.name type.routeBase)

end SourceAtlas
