import SourceAtlas.Command.Parse
import SourceAtlas.Overview.Run

/-!
# Running a command line

A command line is run on a file tree. It gives what goes to the two output streams, the exit status,
and the file tree afterwards. Records that go to a log file are always written.
-/

namespace SourceAtlas.Command

/-- What running a command line comes to. A failure that the program does not report itself takes
the place of the exit status. -/
structure Result where
  tree : FileTree
  status : Except Overview.Failure Nat
  output : Text
  errors : Text

def consoleLevel (request : Request) : LogLevel :=
  if request.isSet .verbose then .debug
  else if request.isSet .quiet then .warning
  else .info

/-- The absolute path of a log file. A `..` takes away the name before it. -/
def logPath (here : Path) (given : Text) : Path :=
  (here.join (.ofText given)).collapse

def openLog (disk : Disk) (tree : FileTree) (here : Path) (given : Text) : FileTree.Change :=
  let made := FileTree.makeDirectories disk.refuses tree here (Path.ofText given).parent
  match made.fault with
  | some fault => ⟨made.tree, some fault⟩
  | none => made.tree.append here (logPath here given) []

def shownPath (here path : Path) : Text :=
  if path.absolute && here.parts.isPrefixOf path.parts then
    Path.text { absolute := false, parts := path.parts.drop here.parts.length }
  else path.text

def reportLines (here : Path) (outcome : Overview.Outcome) : List Text :=
  (if outcome.dryRun then "Reports rendered (dry-run):".toList
  else "Reports written to ".toList ++ shownPath here (outcome.outputDir.getD outcome.root) ++
    ":".toList) :: outcome.reports.map fun report => "  - ".toList ++ report.1

def outputText (verb : Verb) (here : Path) (outcome : Overview.Outcome) : Text :=
  let lines := outcome.assignments :: match verb with
    | .generate => reportLines here outcome
    | .classify => []
  lines.flatMap (· ++ ['\n'])

/-- Only two problems with a file are reported. -/
def fileFaultText? (fault : FileFault) : Option Text :=
  if fault.problem = .notFound || fault.problem = .notDirectory then
    some (fault.message ++ ['\n'])
  else none

def failureText? : Overview.Failure → Option Text
  | .root fault => some (fault.message ++ ['\n'])
  | .settings fault =>
    if fault.isReported then some ("Configuration error: ".toList ++ fault.message ++ ['\n'])
    else none
  | .ignoreFile fault => fileFaultText? fault
  | .conflict report => some ("Classification failed:\n".toList ++ report.message ++ ['\n'])
  | .template (.unreadable fault) => fileFaultText? fault
  | .template _ => none
  | .writing (.file fault) => fileFaultText? fault
  | .writing _ => none

def perform (tools : Overview.Tools) (tree : FileTree) (here : Path) (request : Request) :
    Overview.Result :=
  match request.verb with
  | .generate => Overview.run tools tree here request.path (request.value? .config)
      (request.value? .outputDir) (request.isSet .dryRun)
  | .classify => Overview.classify tools.yaml tree here request.path (request.value? .config)

def keepLog (tree : FileTree) (here : Path) (logFile : Option Text) (stamp : Text)
    (records : List LogRecord) : FileTree :=
  match logFile with
  | none => tree
  | some given => (tree.append here (logPath here given)
      (Utf8.encode (records.flatMap (LogRecord.fileLine stamp)))).tree

def runRequest (tools : Overview.Tools) (tree : FileTree) (here : Path) (stamp : Text)
    (request : Request) : Result :=
  let done := perform tools tree here request
  let tree := keepLog done.tree here (request.value? .logFile) stamp done.log
  let console := LogRecord.consoleLines (consoleLevel request) done.log
  match done.outcome with
  | .ok outcome => ⟨tree, .ok 0, outputText request.verb here outcome, console⟩
  | .error failure =>
    match failureText? failure with
    | some text => ⟨tree, .ok 1, [], console ++ text⟩
    | none => ⟨tree, .error failure, [], console⟩

/-- Runs a command line in a directory. `stamp` is the time that goes into a log file. -/
def run (tools : Overview.Tools) (tree : FileTree) (here : Path) (stamp : Text)
    (arguments : List Text) : Result :=
  match parse arguments with
  | .error fault =>
    if fault.problem = .help then ⟨tree, .ok 0, helpText fault.verb, []⟩
    else ⟨tree, .ok 2, [], fault.message ++ ['\n']⟩
  | .ok request =>
    match request.value? .logFile with
    | none => runRequest tools tree here stamp request
    | some given =>
      let opened := openLog tools.disk tree here given
      match opened.fault with
      | some fault => ⟨opened.tree, .error (.writing fault), [], []⟩
      | none => runRequest tools opened.tree here stamp request

end SourceAtlas.Command
