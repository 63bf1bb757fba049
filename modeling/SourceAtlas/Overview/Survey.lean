import SourceAtlas.Classification
import SourceAtlas.Overview.Log
import SourceAtlas.Parser.Registry
import SourceAtlas.Report.Template
import SourceAtlas.Settings.Load
import SourceAtlas.Workspace.Sources

/-!
# Surveying a workspace

A survey finds the root and the settings, scans every source and gives each file its category. It
changes nothing.
-/

namespace SourceAtlas.Overview

/-- Why a run failed. -/
inductive Failure where
  | root (fault : Workspace.RootFault)
  | settings (fault : Settings.LoadFault)
  | ignoreFile (fault : FileFault)
  | conflict (report : ConflictReport)
  | template (fault : Report.TemplateFault)
  | writing (fault : WriteFault)

def Failure.message : Failure → Text
  | .root fault => fault.message
  | .settings fault => fault.message
  | .ignoreFile fault => fault.message
  | .conflict report => report.message
  | .template fault => fault.message
  | .writing fault => fault.message

/-- What a survey found. -/
structure Survey where
  root : Path
  settings : Settings
  files : List FileSummary
  classification : Entries Text Text
  unparsed : List Text

/-- The records on sources: those that could not be read, and how many there are. -/
def readingLog (root : Path) (readings : List Workspace.Reading) : List LogRecord :=
  (readings.filterMap fun reading => reading.fault.map fun fault =>
    ⟨.warning, .workspace, "Could not read ".toList ++ reading.source.path ++ ": ".toList ++
      fault.message⟩) ++
  [⟨.debug, .workspace, "Discovered ".toList ++ natText readings.length ++
      " source file(s) under ".toList ++ root.text⟩,
    ⟨.info, .run, "Found ".toList ++ natText readings.length ++ " source file(s)".toList⟩]

/-- The records on scanning: parsers that failed, counts, and the files without types. -/
def scanLog (sources : List Source) (unparsed : List Text) : List LogRecord :=
  (sources.filterMap fun source => (Registry.builtin.scan source).failure.map fun reason =>
    ⟨.warning, .run, "Failed to scan ".toList ++ source.path ++ ": ".toList ++ reason⟩) ++
  [⟨.info, .run, "Parsed ".toList ++ natText (sources.length - unparsed.length) ++
      " file(s); ".toList ++ natText unparsed.length ++ " produced no types".toList⟩] ++
  unparsed.map fun path => ⟨.debug, .run, "No types found in ".toList ++ path⟩

def classificationLog : Except ConflictReport (Entries Text Text) → List LogRecord
  | .error report =>
    report.conflicts.map fun conflict => ⟨.error, .classification, conflict.describe⟩
  | .ok classification =>
    let unclassified := classification.countP fun entry => entry.2.isEmpty
    if unclassified = 0 then []
    else [⟨.debug, .classification, natText unclassified ++
      " file(s) matched no category".toList⟩]

def withCategory (classification : Entries Text Text) (file : FileSummary) : FileSummary :=
  { file with category := (classification.lookup file.path).getD [] }

/-- Scans the sources that were read and gives each file its category. -/
def surveyReadings (root : Path) (settings : Settings) (readings : List Workspace.Reading) :
    Logged (Except Failure Survey) :=
  let sources := Workspace.sorted (readings.map (·.source))
  let (files, unparsed) := Registry.builtin.scanAll sources
  let classified := classifyAll settings.categories files
  { log := readingLog root readings ++ scanLog sources unparsed ++ classificationLog classified
    value := match classified with
      | .error report => .error (.conflict report)
      | .ok classification => .ok
        { root, settings, files := files.map (withCategory classification), classification,
          unparsed } }

def surveyFiles (tree : FileTree) (root : Path) (settings : Settings) :
    Logged (Except Failure Survey) :=
  match Workspace.readings tree root Registry.builtin.extensions with
  | .error fault => ⟨[], .error (.ignoreFile fault)⟩
  | .ok readings => surveyReadings root settings readings

/-- Where the settings of a run are: at the path that was given, else in the workspace. -/
def settingsPath (root : Path) (config : Option Text) : Path :=
  match config with
  | none => root
  | some given => if given.isEmpty then root else .ofText given

def survey (yaml : YamlReader) (tree : FileTree) (here : Path) (path : Text)
    (config : Option Text) : Logged (Except Failure Survey) :=
  match Workspace.resolveRoot tree here path with
  | .error fault => ⟨[], .error (.root fault)⟩
  | .ok root =>
    let start : LogRecord :=
      ⟨.info, .run, "Starting overview run for ".toList ++ root.text⟩
    match Settings.load yaml tree here (settingsPath root config) with
    | .error fault => ⟨[start], .error (.settings fault)⟩
    | .ok settings =>
      let loaded : LogRecord :=
        ⟨.info, .run, "Loaded configuration from ".toList ++ settings.source.text⟩
      let found := surveyFiles tree root settings
      ⟨start :: loaded :: found.log, found.value⟩

end SourceAtlas.Overview
