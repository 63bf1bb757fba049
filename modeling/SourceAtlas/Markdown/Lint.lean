import SourceAtlas.Text.Basic

/-!
# Markdown layout

The linter drops trailing blanks, collapses blank lines and puts blank lines around headings. The
lines of code blocks keep their blank lines.
-/

namespace SourceAtlas.Markdown

def togglesCode (inCode : Bool) (line : Text) : Bool :=
  startsWith "\x60\x60\x60".toList line ||
    line == (if inCode then "</pre>".toList else "<pre>".toList)

/-- Whether a line is a heading: one to six `#` and a blank. -/
def isHeading (line : Text) : Bool :=
  let marks := line.takeWhile (· == '#')
  1 ≤ marks.length && marks.length ≤ 6 && ((line.drop marks.length).head?.any isBlank)

/-- Whether a blank line has to be put in before more text. `done` are the lines so far, last one
first. -/
def needsBlank (done : List Text) : Bool :=
  match done with
  | [] => false
  | last :: _ => !last.isEmpty

/-- Lays out lines one after the other. `done` are the lines so far, last one first. -/
def layOut (inCode : Bool) (done : List Text) : List Text → List Text
  | [] => done
  | raw :: rest =>
    let line := trimRight raw
    if togglesCode inCode line then layOut (!inCode) (line :: done) rest
    else if inCode then layOut inCode (line :: done) rest
    else if line.isEmpty then
      layOut inCode (if needsBlank done then [] :: done else done) rest
    else if isHeading line then
      layOut inCode ([] :: line :: (if needsBlank done then [] :: done else done)) rest
    else layOut inCode (line :: done) rest

def lint (markdown : Text) : Text :=
  let done := layOut false [] (splitOn '\n' (unifyBreaks markdown))
  joinWith ['\n'] (done.dropWhile (·.isEmpty)).reverse ++ ['\n']

end SourceAtlas.Markdown
