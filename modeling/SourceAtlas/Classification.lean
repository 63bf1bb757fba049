import SourceAtlas.Rule

/-!
# Classification

Every file gets at most one category. A file that several rules cover is a conflict, and all
conflicts of a file set are reported together.
-/

namespace SourceAtlas

/-- A file with the names of all rules that cover it. -/
structure Conflict where
  path : Text
  categories : List Text
  deriving DecidableEq, Repr

def Conflict.describe (conflict : Conflict) : Text :=
  "File '".toList ++ conflict.path ++ "' matches multiple categories: ".toList ++
    joinWith ", ".toList conflict.categories ++ ".".toList

/-- One conflict and the conflicts after it. -/
structure ConflictReport where
  first : Conflict
  others : List Conflict
  deriving DecidableEq, Repr

namespace ConflictReport

def conflicts (report : ConflictReport) : List Conflict :=
  report.first :: report.others

def ofList? : List Conflict → Option ConflictReport
  | [] => none
  | first :: others => some ⟨first, others⟩

def message (report : ConflictReport) : Text :=
  joinWith ['\n'] (report.conflicts.map Conflict.describe ++
    [("Each file must belong to exactly one category. " ++
      "Adjust paths, patterns or extensions so the categories do not overlap.").toList])

end ConflictReport

/-- The names of all rules that cover a file, in the order of the rules. -/
def matchingCategories (rules : List Rule) (path extension : Text) : List Text :=
  (rules.filter (·.covers path extension)).map (·.name)

def conflict? (rules : List Rule) (path extension : Text) : Option Conflict :=
  match matchingCategories rules path extension with
  | first :: second :: rest => some ⟨path, first :: second :: rest⟩
  | _ => none

def classifyFile (rules : List Rule) (path extension : Text) : Except ConflictReport Text :=
  match conflict? rules path extension with
  | some conflict => .error ⟨conflict, []⟩
  | none => .ok ((matchingCategories rules path extension).head?.getD [])

/-- The categories of a file set under their paths, or all its conflicts. -/
def classifyAll (rules : List Rule) (files : List FileSummary) :
    Except ConflictReport (Entries Text Text) :=
  match ConflictReport.ofList? (files.filterMap fun file =>
      conflict? rules file.path file.extension) with
  | some report => .error report
  | none => .ok (Entries.ofPairs (files.map fun file =>
      (file.path, (matchingCategories rules file.path file.extension).head?.getD [])))

end SourceAtlas
