import SourceAtlas.Outline
import SourceAtlas.Overview.Survey

/-!
# Runs

A run surveys a workspace, renders its reports and writes them one after the other. What was written
before a failure stays. The reader of YAML, the template engine and the disk are given to a run.
-/

namespace SourceAtlas.Overview

def layoutFile : Text :=
  "ProjectStructure.md".toList

def endpointsFile : Text :=
  "ApiEndpoints.md".toList

/-- What a run relies on beside the file tree. -/
structure Tools where
  yaml : YamlReader
  engine : Report.Engine
  disk : Disk

/-- Writes a report of a survey. -/
def compose (engine : Report.Engine) (turn : Nat) (tree : FileTree) (settings : Settings)
    (content : Report.Content) : Except Failure Text :=
  (Report.write engine turn tree settings.templatesDir settings.style content).mapError .template

/-- What the project structure report of a workspace shows. -/
def layoutContent (tree : FileTree) (root : Path) (layout : Option LayoutSettings) :
    Except FileFault Report.Content :=
  (Workspace.shownFiles tree root layout).map fun files =>
    Report.layoutContent layout (renderOutline (Workspace.displayName root) files)

def specReport? (engine : Report.Engine) (turn : Nat) (tree : FileTree) (survey : Survey)
    (spec : ReportSpec) : Except Failure (Option Text) :=
  Report.categoryReport? (compose engine turn tree survey.settings) spec survey.files
    survey.settings.categories

def renderSpecs (engine : Report.Engine) (turn : Nat) (tree : FileTree) (survey : Survey)
    (reports : Entries Text Text) : List ReportSpec → Logged (Except Failure (Entries Text Text))
  | [] => ⟨[], .ok reports⟩
  | spec :: rest =>
    match specReport? engine turn tree survey spec with
    | .error failure => ⟨[], .error failure⟩
    | .ok (some text) =>
      renderSpecs engine (turn + 1) tree survey (Entries.put spec.name text reports) rest
    | .ok none =>
      let more := renderSpecs engine (turn + 1) tree survey reports rest
      { more with log := ⟨.info, .run, "Skipping ".toList ++ spec.name ++
          "; no files matched its categories".toList⟩ :: more.log }

def fixedReports (engine : Report.Engine) (tree : FileTree) (survey : Survey) :
    Except Failure (Entries Text Text) := do
  let settings := survey.settings
  let content ← (layoutContent tree survey.root settings.layout).mapError .ignoreFile
  let layout ← compose engine 0 tree settings content
  match settings.endpoints with
  | none => .ok [(layoutFile, layout)]
  | some rule =>
    let endpoints ← compose engine 1 tree settings (Report.endpointContent (some rule) survey.files)
    .ok [(layoutFile, layout), (endpointsFile, endpoints)]

/-- All reports of a survey, in the order in which they are written. -/
def render (engine : Report.Engine) (tree : FileTree) (survey : Survey) :
    Logged (Except Failure (Entries Text Text)) :=
  match fixedReports engine tree survey with
  | .error failure => ⟨[], .error failure⟩
  | .ok reports => renderSpecs engine 2 tree survey reports survey.settings.reports

/-- A file tree after reports were written to it, with the fault that stopped the writing. -/
structure Writing where
  tree : FileTree
  log : List LogRecord
  fault : Option WriteFault

def reportFile (directory : Path) (report : Text × Text) : Path :=
  directory.join (.ofText report.1)

def writeReport (disk : Disk) (tree : FileTree) (here directory : Path) (report : Text × Text) :
    FileTree.Change :=
  let made := FileTree.makeDirectories disk.refuses tree here directory
  match made.fault with
  | some fault => ⟨made.tree, some fault⟩
  | none =>
    made.tree.write here (reportFile directory report) (Utf8.encode report.2) (disk.stops report.1)

/-- Writes reports into a directory, up to the first that cannot be written. -/
def writeReports (disk : Disk) (tree : FileTree) (here directory : Path) :
    Entries Text Text → Writing
  | [] => ⟨tree, [], none⟩
  | report :: rest =>
    let written := writeReport disk tree here directory report
    match written.fault with
    | some fault => ⟨written.tree, [], some fault⟩
    | none =>
      let more := writeReports disk written.tree here directory rest
      { more with log := ⟨.info, .output, "Wrote ".toList ++ (reportFile directory report).text⟩ ::
          more.log }

/-- What a run gave. -/
structure Outcome where
  root : Path
  files : List FileSummary
  classification : Entries Text Text
  unparsed : List Text
  reports : Entries Text Text
  outputDir : Option Path
  dryRun : Bool

def Survey.outcome (survey : Survey) : Outcome :=
  { root := survey.root
    files := survey.files
    classification := survey.classification
    unparsed := survey.unparsed
    reports := []
    outputDir := none
    dryRun := false }

/-- A file tree after a run, the records of the run, and its outcome. -/
structure Result where
  tree : FileTree
  log : List LogRecord
  outcome : Except Failure Outcome

def classify (yaml : YamlReader) (tree : FileTree) (here : Path) (path : Text)
    (config : Option Text) : Result :=
  let surveyed := survey yaml tree here path config
  ⟨tree, surveyed.log, surveyed.value.map Survey.outcome⟩

/-- Where reports go. A path that is given has its home directory expanded already. -/
def outputDirectory (root : Path) (given : Option Text) : Path :=
  match given with
  | none => root.join (.ofText overviewDirectory)
  | some given => if given.isEmpty then root.join (.ofText overviewDirectory) else .ofText given

/-- Writes the reports of a survey, or only tells how many there are. -/
def deliver (disk : Disk) (tree : FileTree) (here : Path) (survey : Survey)
    (reports : Entries Text Text) (target : Path) (dryRun : Bool) : Result :=
  let outcome : Outcome :=
    { survey.outcome with reports, outputDir := some target, dryRun }
  let count := natText reports.length
  if dryRun then
    ⟨tree, [⟨.info, .run, "Dry-run completed; ".toList ++ count ++
      " report(s) not written".toList⟩], .ok outcome⟩
  else
    let written := writeReports disk tree here target reports
    match written.fault with
    | some fault => ⟨written.tree, written.log, .error (.writing fault)⟩
    | none => ⟨written.tree, written.log ++ [⟨.info, .run, "Generated ".toList ++ count ++
        " report(s) in ".toList ++ target.text⟩], .ok outcome⟩

def run (tools : Tools) (tree : FileTree) (here : Path) (path : Text)
    (config outputDir : Option Text) (dryRun : Bool) : Result :=
  let surveyed := survey tools.yaml tree here path config
  match surveyed.value with
  | .error failure => ⟨tree, surveyed.log, .error failure⟩
  | .ok found =>
    let rendered := render tools.engine tree found
    match rendered.value with
    | .error failure => ⟨tree, surveyed.log ++ rendered.log, .error failure⟩
    | .ok reports =>
      let done := deliver tools.disk tree here found reports
        (outputDirectory found.root outputDir) dryRun
      { done with log := surveyed.log ++ rendered.log ++ done.log }

def shownCategory (file : FileSummary) : Text :=
  if file.category.isEmpty then "uncategorized".toList else file.category

/-- The lines on one category: how many files it has and the names of the first three. -/
def categoryLines (files : List FileSummary) (category : Text) : List Text :=
  let members := files.filter fun file => shownCategory file == category
  ["  [".toList ++ category ++ "] ".toList ++ natText members.length ++ " file(s)".toList] ++
    ((members.take 3).map fun file => "    - ".toList ++ (Path.ofText file.path).name) ++
    (if 3 < members.length then
      ["    ... and ".toList ++ natText (members.length - 3) ++ " more".toList]
    else [])

def Outcome.assignments (outcome : Outcome) : Text :=
  let categories := (outcome.files.map shownCategory).eraseDups.mergeSort fun first second =>
    !decide (second < first)
  joinWith ['\n'] (["Category assignments:".toList] ++
    categories.flatMap (categoryLines outcome.files) ++
    (if outcome.unparsed.isEmpty then []
    else ["Files without types: ".toList ++ natText outcome.unparsed.length]))

end SourceAtlas.Overview
