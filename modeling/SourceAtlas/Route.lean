import SourceAtlas.Dialect

/-!
# Routes

A type gives its methods a common route, and each method adds its own.
-/

namespace SourceAtlas

/-- Joins the route of a type and the route of a method with one slash between them. A route of the
type alone ends with a slash. -/
def composeRoute (base suffix : Text) : Text :=
  let base := trim base
  let suffix := trim suffix
  if base.isEmpty then suffix
  else if suffix.isEmpty then
    if base.getLast? == some '/' then base else base ++ ['/']
  else if base.getLast? == some '/' || suffix.head? == some '/' then base ++ suffix
  else base ++ '/' :: suffix

def routeArguments : List Text :=
  ["template".toList, "path".toList]

/-- The first non-empty route among the markers with one of the given names. -/
def markedRoute? (names : List Text) (markers : List Marker) : Option Text :=
  markers.findSome? fun marker =>
    if names.contains (lower marker.name) then
      (marker.literal? routeArguments).filter (!·.isEmpty)
    else none

/-- The route of a type: that of a route marker with `[controller]` filled in, else the stem of a
controller's name. Only classes have one. -/
def Dialect.routeBase (dialect : Dialect) (kind : TypeKind) (name : Text)
    (markers : List Marker) : Text :=
  if kind = .classType then
    let stem := dropNameEnd controllerEnding name
    match markedRoute? dialect.containerRouteMarkers markers with
    | some route => replaceAll "[controller]".toList stem route
    | none => if stem = name then [] else stem
  else []

end SourceAtlas
