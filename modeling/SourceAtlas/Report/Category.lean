import SourceAtlas.Report.Content

/-!
# Category reports

A report lists the files of its categories with the types they declare.
-/

namespace SourceAtlas.Report

def sectionFiles (files : List FileSummary) (category : Text) : List FileSummary :=
  (files.filter fun file => file.isParsed && file.category == category).mergeSort
    fun first second => !decide (second.path < first.path)

def categoryDescription? (rules : List Rule) (name : Text) : Option Text :=
  (rules.reverse.find? (·.name == name)).bind (·.description)

/-- The sections of a report, in the order of its categories. Empty ones are left out. -/
def sections (spec : ReportSpec) (files : List FileSummary) (rules : List Rule) : List Section :=
  (spec.categories.map fun name =>
    ({ name, description := categoryDescription? rules name,
       files := sectionFiles files name } : Section)).filter fun part => !part.files.isEmpty

def itemLines (label : String) (items : List Text) : List Text :=
  if items.isEmpty then [] else [label.toList ++ codeList items]

/-- Members sorted by name without regard to letter case. -/
def sortedMembers (members : List Member) : List Member :=
  members.mergeSort fun first second => !decide (lower second.name < lower first.name)

def typeLines (type : TypeSummary) : List Text :=
  ["- **".toList ++ type.name ++ "** (".toList ++ type.kind.label ++ ")".toList] ++
    itemLines "  - Route Prefix: " (if type.routeBase.isEmpty then [] else [type.routeBase]) ++
    itemLines "  - Base Types: " type.baseTypes ++
    itemLines "  - Implements: " type.interfaces ++
    itemLines "  - Values: " type.enumValues ++
    (if type.members.isEmpty then []
      else "  - Members:".toList ::
        (sortedMembers type.members).map fun member =>
          "    - ".toList ++ code member.signature)

def fileLines (file : FileSummary) : List Text :=
  ["**File:** ".toList ++ code file.path, []] ++ file.types.flatMap typeLines ++ [[]]

def sectionLines (heading : Text) (part : Section) : List Text :=
  [heading ++ ' ' :: part.name, []] ++ descriptionLines part.description ++
    part.files.flatMap fileLines

def categoryLines (style : MarkdownStyle) (title : Text) (description : Option Text)
    (parts : List Section) : List Text :=
  [style.title ++ ' ' :: title, []] ++ descriptionLines description ++
    parts.flatMap (sectionLines style.heading)

/-- The report on some categories. Nothing is written when it has no sections. -/
def categoryReport? {ε : Type} (write : Content → Except ε Text) (spec : ReportSpec)
    (files : List FileSummary) (rules : List Rule) : Except ε (Option Text) :=
  let parts := sections spec files rules
  if parts.isEmpty then .ok none
  else (write (.category (stemOf spec.name) spec.description parts)).map some

end SourceAtlas.Report
