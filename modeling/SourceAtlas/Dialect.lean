import SourceAtlas.Summary

/-!
# Dialects

The two brace languages and the words each of them gives a meaning to. C# writes attributes in
brackets and types in front of names; TypeScript writes decorators and types after a colon.
-/

namespace SourceAtlas

/-- The brace languages that are scanned. -/
inductive Dialect where
  | csharp
  | typescript
  deriving DecidableEq, Repr

namespace Dialect

def commentMarks : Dialect → List Text
  | .csharp => ["//", "/*", "*", "#"].map String.toList
  | .typescript => ["//", "/*", "*"].map String.toList

def isComment (dialect : Dialect) (line : Text) : Bool :=
  dialect.commentMarks.any fun mark => startsWith mark line

def peel : Dialect → Text → List Marker × Text
  | .csharp => peelBracketed
  | .typescript => peelDecorators

/-- Whether the text before a declaration on its line is only indentation or markers. -/
def startsStatement (dialect : Dialect) (before : Text) : Bool :=
  isBlankText before || isBlankText (dialect.peel before).2

/-- Markers that give a type its route, in lower case. -/
def containerRouteMarkers : Dialect → List Text
  | .csharp => ["route", "routeprefix"].map String.toList
  | .typescript => ["controller", "route"].map String.toList

/-- Markers that bind a parameter to the request, in lower case. -/
def bindingMarkers : Dialect → List Text
  | .csharp => ["frombody", "fromform", "fromquery", "fromroute", "fromheader"].map String.toList
  | .typescript => ["body", "query", "param", "headers", "header"].map String.toList

/-- Types that are no payload of their own. -/
def primitiveTypes : Dialect → List Text
  | .csharp =>
    ["int", "uint", "short", "ushort", "long", "ulong", "byte", "sbyte", "char", "string",
      "String", "bool", "Boolean", "object", "dynamic", "double", "float", "decimal", "Guid",
      "DateTime", "DateTimeOffset", "DateOnly", "TimeOnly", "TimeSpan", "Int32", "Int64", "void",
      "CancellationToken"].map String.toList
  | .typescript =>
    ["string", "number", "boolean", "bigint", "symbol", "any", "unknown", "object", "never",
      "void", "null", "undefined", "Date", "String", "Number", "Boolean",
      "AbortSignal"].map String.toList

/-- Result types that only wrap a payload. -/
def actionResults : Dialect → List Text
  | .csharp => ["IActionResult", "ActionResult", "IResult"].map String.toList
  | .typescript => []

end Dialect

/-- Markers that give a method its route, in lower case. -/
def routeMarkers : List Text :=
  ["route".toList]

def controllerEnding : Text :=
  "Controller".toList

/-- Names of the callbacks a game engine makes, in lower case and without inner underscores. -/
def lifecycleHooks : List Text :=
  ["_ready", "_process", "_physicsprocess", "_input", "_unhandledinput", "_unhandledkeyinput",
    "_entertree", "_exittree", "_draw", "_notification", "_init"].map String.toList

/-- Whether the name is an engine callback such as `_Ready` or `_physics_process`. -/
def isLifecycleHook : Text → Bool
  | '_' :: rest => lifecycleHooks.contains ('_' :: lower (rest.filter (· ≠ '_')))
  | _ => false

end SourceAtlas
