import SourceAtlas.Text.Glob

/-!
# Ignore rules

The patterns of a `.gitignore` file. Of the rules that match a path the last one decides.
-/

namespace SourceAtlas

/-- One pattern. -/
structure IgnoreRule where
  pattern : Text
  directoryOnly : Bool
  anchored : Bool
  negated : Bool
  hasSlash : Bool
  deriving DecidableEq, Repr

namespace IgnoreRule

/-- Reads a pattern. A slash at its end restricts it to directories and one at its start ties it to
the root. -/
def ofPattern? (pattern : Text) (negated : Bool) : Option IgnoreRule :=
  let pattern := forwardSlashes (trim pattern)
  if pattern.isEmpty then none
  else
    let directoryOnly := pattern.getLast? == some '/'
    let pattern := dropEndWhile (· == '/') pattern
    let anchored := pattern.head? == some '/'
    let pattern := pattern.dropWhile (· == '/')
    some { pattern, directoryOnly, anchored, negated, hasSlash := pattern.contains '/' }

/-- Whether a rule matches a relative path. A pattern tied to the root or with a slash in it is held
against the whole path, any other against each part. -/
def covers (rule : IgnoreRule) (path : Text) (isDirectory : Bool) : Bool :=
  if rule.pattern.isEmpty || (rule.directoryOnly && !isDirectory) then false
  else if rule.anchored || rule.hasSlash then
    globMatches rule.pattern path ||
      (rule.directoryOnly && startsWith (rule.pattern ++ ['/']) path)
  else (splitOn '/' path).any (globMatches rule.pattern)

def ofLine? (raw : Text) : Option IgnoreRule :=
  match trim raw with
  | '#' :: _ => none
  | '!' :: pattern => ofPattern? pattern true
  | pattern => ofPattern? pattern false

def parseFile (text : Text) : List IgnoreRule :=
  (lines text).filterMap ofLine?

end IgnoreRule

def isIgnored (rules : List IgnoreRule) (path : Text) (isDirectory : Bool) : Bool :=
  rules.foldl (fun ignored rule => if rule.covers path isDirectory then !rule.negated else ignored)
    false

end SourceAtlas
