import SourceAtlas.Summary

/-!
# Category rules

A rule says which files belong to a category: by extension, by parts of the path and by parts of the
name. Letter case and the kind of slash do not matter.
-/

namespace SourceAtlas

/-- The rule of one category. -/
structure Rule where
  name : Text
  description : Option Text
  includePaths : List Text
  excludePaths : List Text
  includeNames : List Text
  excludeNames : List Text
  extensions : List Text
  deriving DecidableEq, Repr

/-- An extension in lower case with a dot in front and without stars. -/
def normaliseExtension (extension : Text) : Text :=
  let value := (lower (trim extension)).dropWhile (· == '*')
  if value.isEmpty || value.head? == some '.' then value else '.' :: value

def matchAllPatterns : List Text :=
  ["*", "**", "*/*", "**/*"].map String.toList

/-- A path in lower case with forward slashes. -/
def comparable (path : Text) : Text :=
  lower (forwardSlashes path)

/-- Whether a path contains a pattern. Stars at its end are free, and after `*/` the pattern has to
start a part of the path or end it. -/
def pathMatches (path pattern : Text) : Bool :=
  let path := comparable path
  let pattern := trim (comparable pattern)
  if pattern.isEmpty then false
  else if matchAllPatterns.contains pattern then true
  else
    match pattern with
    | '*' :: '/' :: ending => occursIn ('/' :: ending) path || endsWith ending path
    | _ => occursIn (dropEndWhile (· == '*') pattern) path

def nameMatches (path pattern : Text) : Bool :=
  let pattern := lower (trim pattern)
  !pattern.isEmpty && occursIn pattern (comparable path)

def Rule.covers (rule : Rule) (path extension : Text) : Bool :=
  (rule.extensions.isEmpty ||
      (rule.extensions.map normaliseExtension).contains (normaliseExtension extension)) &&
    (rule.includePaths.isEmpty || rule.includePaths.any (pathMatches path)) &&
    !rule.excludePaths.any (pathMatches path) &&
    (rule.includeNames.isEmpty || rule.includeNames.any (nameMatches path)) &&
    !rule.excludeNames.any (nameMatches path)

def Rule.hasFilters (rule : Rule) : Bool :=
  !(rule.includePaths.isEmpty && rule.excludePaths.isEmpty && rule.includeNames.isEmpty &&
    rule.excludeNames.isEmpty && rule.extensions.isEmpty)

end SourceAtlas
