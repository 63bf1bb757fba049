import SourceAtlas.FileTree.Access
import SourceAtlas.Markdown.Lint
import SourceAtlas.Report.Category
import SourceAtlas.Report.Endpoints
import SourceAtlas.Report.Layout

/-!
# Templates

A report is written by its built-in lines or by a template of the user, and the result is linted. The
templates of the user are filled in by an engine that is given to the program.
-/

namespace SourceAtlas.Report

/-- An engine writes a content in a style from the text of a template. It may look at all files, and
what it writes may also depend on its turn: how many reports have come before. -/
abbrev Engine :=
  (turn : Nat) → (tree : FileTree) → (directory : Path) → (template : Text) →
    MarkdownStyle → Content → Except Text Text

/-- Why a template of the user could not be used. -/
inductive TemplateFault where
  | unreadable (fault : FileFault)
  | undecodable (fault : Utf8.Fault)
  | failed (message : Text)

def TemplateFault.message : TemplateFault → Text
  | .unreadable fault => fault.message
  | .undecodable fault => fault.message
  | .failed message => message

def Content.builtinLines (style : MarkdownStyle) : Content → List Text
  | .layout description outline excludedPaths excludedExtensions =>
    layoutLines style description outline excludedPaths excludedExtensions
  | .endpoints description rows => endpointLines style description rows
  | .category title description parts => categoryLines style title description parts

def Content.builtin (content : Content) (style : MarkdownStyle) : Text :=
  Markdown.lint (joinWith ['\n'] (content.builtinLines style))

/-- The text of the user's template for a report, if there is one. -/
def template? (tree : FileTree) (directory : Path) (name : String) :
    Except TemplateFault (Option Text) :=
  match tree.node? directory (.ofText name.toList) with
  | some (.file content) =>
    match Utf8.decode content with
    | .ok text => .ok (some text)
    | .error fault => .error (.undecodable fault)
  | some (.locked problem) => .error (.unreadable ⟨problem, directory.join (.ofText name.toList)⟩)
  | _ => .ok none

/-- Writes a report: from the user's template if there is one, else from the built-in lines. -/
def write (engine : Engine) (turn : Nat) (tree : FileTree) (templatesDir : Option Path)
    (style : MarkdownStyle) (content : Content) : Except TemplateFault Text :=
  match templatesDir with
  | none => .ok (content.builtin style)
  | some directory =>
    match template? tree directory content.templateName with
    | .error fault => .error fault
    | .ok none => .ok (content.builtin style)
    | .ok (some template) =>
      match engine turn tree directory template style content with
      | .error message => .error (.failed message)
      | .ok text => .ok (Markdown.lint text)

end SourceAtlas.Report
