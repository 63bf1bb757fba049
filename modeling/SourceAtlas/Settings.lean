import SourceAtlas.Path
import SourceAtlas.Rule

/-!
# Settings

What a configuration file sets, and which settings can be used.
-/

namespace SourceAtlas

/-- Settings of the directory tree report. -/
structure LayoutSettings where
  description : Option Text
  excludedPaths : List Text
  excludedExtensions : List Text
  deriving DecidableEq, Repr

/-- A report put together from some categories. -/
structure ReportSpec where
  name : Text
  description : Option Text
  categories : List Text
  deriving DecidableEq, Repr

/-- How headings and code blocks are written. -/
structure MarkdownStyle where
  headerLevel : Int
  codeBlockStyle : Text
  deriving DecidableEq, Repr

def MarkdownStyle.standard : MarkdownStyle :=
  { headerLevel := 2, codeBlockStyle := "fenced".toList }

/-- All settings of a run. -/
structure Settings where
  source : Path
  layout : Option LayoutSettings
  endpoints : Option Rule
  categories : List Rule
  reports : List ReportSpec
  style : MarkdownStyle
  templatesDir : Option Path
  deriving DecidableEq, Repr

/-- Why settings cannot be used. -/
inductive SettingsFault where
  | noCategories
  | noReports
  | blankCategory
  | repeatedCategory (name : Text)
  | noExtensions (category : Text)
  | blankReport
  | emptyReport (name : Text)
  | unknownCategory (report category : Text)
  deriving DecidableEq, Repr

def SettingsFault.message : SettingsFault → Text
  | .noCategories => "Configuration must define at least one category.".toList
  | .noReports => "Configuration must define at least one generated file.".toList
  | .blankCategory => "All categories must have a non-empty name.".toList
  | .repeatedCategory name =>
    "Category '".toList ++ name ++ "' is defined more than once.".toList
  | .noExtensions category =>
    "Category '".toList ++ category ++ "' must define at least one file extension.".toList
  | .blankReport => "All generated files must have a non-empty name.".toList
  | .emptyReport name =>
    "Generated file '".toList ++ name ++ "' must include at least one category.".toList
  | .unknownCategory report category =>
    "Generated file '".toList ++ report ++ "' references unknown category: ".toList ++ category

/-- The first fault of the categories; `known` are the names before them. -/
def categoryFault? (known : List Text) : List Rule → Option SettingsFault
  | [] => none
  | category :: rest =>
    if isBlankText category.name then some .blankCategory
    else if known.contains category.name then some (.repeatedCategory category.name)
    else if category.extensions.isEmpty then some (.noExtensions category.name)
    else categoryFault? (category.name :: known) rest

def reportFault? (known : List Text) (report : ReportSpec) : Option SettingsFault :=
  if isBlankText report.name then some .blankReport
  else if report.categories.isEmpty then some (.emptyReport report.name)
  else (report.categories.find? fun name => !known.contains name).map
    (.unknownCategory report.name)

def Settings.fault? (settings : Settings) : Option SettingsFault :=
  if settings.categories.isEmpty then some .noCategories
  else if settings.reports.isEmpty then some .noReports
  else
    match categoryFault? [] settings.categories with
    | some fault => some fault
    | none => settings.reports.findSome? (reportFault? (settings.categories.map (·.name)))

end SourceAtlas
