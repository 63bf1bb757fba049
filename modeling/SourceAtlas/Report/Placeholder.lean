import SourceAtlas.Report.Template
import SourceAtlas.Text.Quoted

/-!
# Placeholders

A small template engine: a name between double braces stands for a value. What is said about runs is
said of every engine, not of this one.
-/

namespace SourceAtlas.Report

abbrev Context := Entries Text Text

def styleContext (style : MarkdownStyle) : Context :=
  [("h2".toList, style.title), ("h3".toList, style.heading),
    ("code_start".toList, style.codeStart), ("code_end".toList, style.codeEnd)]

def descriptionContext (description : Option Text) : Context :=
  [("description".toList, description.getD "None".toList)]

def Content.context : Content → Context
  | .layout description outline excludedPaths excludedExtensions =>
    descriptionContext description ++ [("tree".toList, outline),
      ("excluded_paths".toList, quotedList excludedPaths),
      ("excluded_extensions".toList, quotedList excludedExtensions)]
  | .endpoints description _ => descriptionContext description
  | .category title description _ => ("title".toList, title) :: descriptionContext description

def nameFront? : Text → Option Text
  | [] => none
  | '}' :: '}' :: _ => some []
  | c :: rest => (nameFront? rest).map (c :: ·)

/-- Fills in the names of a template; `skip` characters of a name are still to be passed over. -/
def fillFrom (context : Context) (skip : Nat) : Text → Text
  | [] => []
  | c :: rest =>
    if 0 < skip then fillFrom context (skip - 1) rest
    else if c = '{' && rest.head? == some '{' then
      match nameFront? (rest.drop 1) with
      | some name =>
        (context.lookup (trim name)).getD [] ++ fillFrom context (name.length + 3) rest
      | none => c :: fillFrom context 0 rest
    else c :: fillFrom context 0 rest

def dropFinalBreak (template : Text) : Text :=
  if template.getLast? == some '\n' then template.dropLast else template

def fill : Engine := fun _ _ _ template style content =>
  .ok (fillFrom (styleContext style ++ content.context) 0 (dropFinalBreak template))

end SourceAtlas.Report
