import SourceAtlas.Report.Content

/-!
# The project structure report
-/

namespace SourceAtlas.Report

/-- A heading, a sentence and a list of code items; nothing when the list is empty. -/
def exclusionLines (heading : Text) (title sentence : String) (items : List Text) : List Text :=
  if items.isEmpty then []
  else
    [heading ++ title.toList, [], sentence.toList, []] ++
      (items.map fun item => "- ".toList ++ code item) ++ [[]]

def layoutLines (style : MarkdownStyle) (description : Option Text) (outline : Text)
    (excludedPaths excludedExtensions : List Text) : List Text :=
  [style.title ++ " Project Structure".toList, []] ++ descriptionLines description ++
    [style.heading ++ " Directory Structure".toList, [], style.codeStart, outline, style.codeEnd,
      []] ++
    exclusionLines style.heading " Excluded Paths"
      "The following paths are **excluded** from the project structure analysis:"
      excludedPaths ++
    exclusionLines style.heading " Excluded Extensions"
      "The following file extensions are **excluded** from the analysis:" excludedExtensions

/-- What the project structure report shows. -/
def layoutContent (settings : Option LayoutSettings) (outline : Text) : Content :=
  .layout (settings.bind (·.description)) outline ((settings.map (·.excludedPaths)).getD [])
    ((settings.map (·.excludedExtensions)).getD [])

end SourceAtlas.Report
