import SourceAtlas.Settings
import SourceAtlas.Summary

/-!
# What reports show

The content of a report is what a template gets to see, apart from the style of the markdown.
-/

namespace SourceAtlas.Report

/-- One row of the endpoint table. -/
structure EndpointRow where
  route : Text
  httpMethod : Text
  controller : Text
  handler : Text
  request : Text
  response : Text
  deriving DecidableEq, Repr

/-- A category with its files. -/
structure Section where
  name : Text
  description : Option Text
  files : List FileSummary
  deriving DecidableEq, Repr

/-- What the project structure, the endpoint table or a category report shows. -/
inductive Content where
  | layout (description : Option Text) (outline : Text)
      (excludedPaths excludedExtensions : List Text)
  | endpoints (description : Option Text) (rows : List EndpointRow)
  | category (title : Text) (description : Option Text) (parts : List Section)

def Content.templateName : Content → String
  | .layout .. => "project_structure.md.j2"
  | .endpoints .. => "api_endpoints.md.j2"
  | .category .. => "category_report.md.j2"

/-- A description with a blank line after it; an empty one is left out. -/
def descriptionLines (description : Option Text) : List Text :=
  match description with
  | none => []
  | some text => if text.isEmpty then [] else [text, []]

def code (text : Text) : Text :=
  '\x60' :: (text ++ ['\x60'])

def codeList (items : List Text) : Text :=
  joinWith ", ".toList (items.map code)

end SourceAtlas.Report

namespace SourceAtlas.MarkdownStyle

def title (style : MarkdownStyle) : Text :=
  List.replicate style.headerLevel.toNat '#'

def heading (style : MarkdownStyle) : Text :=
  List.replicate (style.headerLevel + 1).toNat '#'

def isFenced (style : MarkdownStyle) : Bool :=
  style.codeBlockStyle == "fenced".toList

def codeStart (style : MarkdownStyle) : Text :=
  if style.isFenced then "\x60\x60\x60".toList else "<pre>".toList

def codeEnd (style : MarkdownStyle) : Text :=
  if style.isFenced then "\x60\x60\x60".toList else "</pre>".toList

end SourceAtlas.MarkdownStyle
