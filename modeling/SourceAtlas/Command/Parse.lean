import SourceAtlas.Command.Options
import SourceAtlas.Text.Integer
import SourceAtlas.Text.Quoted

/-!
# Command lines

A command line has options of the program, a command, and then options and a path for the command.
-/

namespace SourceAtlas.Command

/-- The commands. -/
inductive Verb where
  | generate
  | classify
  deriving DecidableEq, Repr

def Verb.label : Verb → Text
  | .generate => "generate".toList
  | .classify => "classify".toList

def verbs : List Verb :=
  [.generate, .classify]

def flag (key : OptionKey) (names : List String) : OptionSpec :=
  { key, names := names.map String.toList, takesValue := false }

def valued (key : OptionKey) (name : String) : OptionSpec :=
  { key, names := [name.toList], takesValue := true }

def globalOptions : List OptionSpec :=
  [flag .help ["-h", "--help"], flag .verbose ["-v", "--verbose"], flag .quiet ["-q", "--quiet"],
    valued .logFile "--log-file"]

def verbOptions (verb : Verb) : List OptionSpec :=
  [flag .help ["-h", "--help"], flag .verbose ["-v", "--verbose"], valued .config "--config",
    valued .workers "--workers"] ++
  match verb with
  | .generate => [valued .outputDir "--output-dir", flag .dryRun ["--dry-run"]]
  | .classify => []

def UsageProblem.text : UsageProblem → Text
  | .help => "help was asked for".toList
  | .ambiguous argument names =>
    "ambiguous option: ".toList ++ argument ++ " could match ".toList ++
      joinWith ", ".toList names
  | .expectedValue option =>
    "argument ".toList ++ option ++ ": expected one argument".toList
  | .ignoredValue option value =>
    "argument ".toList ++ option ++ ": ignored explicit argument ".toList ++ quoted value
  | .invalidCount option value =>
    "argument ".toList ++ option ++ ": expected a positive integer, got ".toList ++ quoted value
  | .invalidCommand given =>
    "argument command: invalid choice: ".toList ++ quoted given ++ " (choose from ".toList ++
      joinWith ", ".toList (verbs.map fun verb => quoted verb.label) ++ ")".toList
  | .noCommand => "the following arguments are required: command".toList
  | .unrecognized arguments =>
    "unrecognized arguments: ".toList ++ joinWith [' '] arguments

/-- A problem with the command whose part of the line it is in, if any. -/
structure UsageFault where
  verb : Option Verb
  problem : UsageProblem
  deriving DecidableEq, Repr

def UsageFault.message (fault : UsageFault) : Text :=
  "overviewgen".toList ++ (fault.verb.map fun verb => ' ' :: verb.label).getD [] ++
    ": error: ".toList ++ fault.problem.text

def OptionSpec.usage (spec : OptionSpec) : Text :=
  " [".toList ++ spec.title ++ (if spec.takesValue then " VALUE".toList else []) ++ "]".toList

def helpText (verb : Option Verb) : Text :=
  let options := match verb with
    | none => globalOptions
    | some verb => verbOptions verb
  "usage: overviewgen".toList ++ (verb.map fun verb => ' ' :: verb.label).getD [] ++
    options.flatMap OptionSpec.usage ++
    (if verb.isNone then " {generate,classify} ...".toList else " [path]".toList) ++ ['\n']

/-- What a command line asks for. -/
structure Request where
  verb : Verb
  path : Text
  settings : List (OptionKey × Text)
  deriving DecidableEq, Repr

namespace Request

def isSet (request : Request) (key : OptionKey) : Bool :=
  request.settings.any fun entry => entry.1 = key

def value? (request : Request) (key : OptionKey) : Option Text :=
  request.settings.reverse.lookup key

end Request

/-- Sets an option. The number of workers has to be a positive integer, and the option for help
stops the reading. -/
def assign (entry : OptionSpec × Text) : Except UsageProblem (OptionKey × Text) :=
  if entry.1.key = .help then .error .help
  else if entry.1.key = .workers then
    match parseInt? entry.2 with
    | some count =>
      if 1 ≤ count then .ok (entry.1.key, entry.2)
      else .error (.invalidCount entry.1.title entry.2)
    | none => .error (.invalidCount entry.1.title entry.2)
  else .ok (entry.1.key, entry.2)

/-- What was read so far: the options set, the path, whether the place of the path is taken, and the
arguments nobody wants. -/
structure Progress where
  settings : List (OptionKey × Text)
  path : Option Text
  taken : Bool
  extras : List Text
  deriving DecidableEq, Repr

def Progress.start : Progress :=
  ⟨[], none, false, []⟩

def Progress.take (progress : Progress) (path : Text) : Progress :=
  { progress with path := some path, taken := true }

/-- Sets what an option comes to; `value` is for an option that needs one. -/
def Progress.set (progress : Progress) (expansion : Expansion) (value : Text) :
    Except UsageProblem Progress := do
  let pending := expansion.pending.toList.map fun spec => (spec, value)
  let settings ← (expansion.set ++ pending).mapM assign
  .ok { progress with
    settings := progress.settings ++ settings
    extras := progress.extras ++ expansion.leftover.toList }

/-- Reads the arguments after a command. The first plain one is the path; a separator next to it is
dropped. -/
def readVerb (specs : List OptionSpec) (progress : Progress) :
    List Argument → Except UsageProblem Progress
  | [] => .ok progress
  | .option use :: rest => do
    let expansion ← expand specs use
    match expansion.pending with
    | none =>
      let progress ← progress.set expansion []
      readVerb specs progress rest
    | some spec =>
      match rest with
      | .plain value :: rest =>
        let progress ← progress.set expansion value
        readVerb specs progress rest
      | _ => .error (.expectedValue spec.title)
  | .unknown text :: rest =>
    readVerb specs { progress with extras := progress.extras ++ [text] } rest
  | .separator :: rest =>
    if progress.taken then
      readVerb specs { progress with extras := progress.extras ++ ["--".toList] } rest
    else
      match rest with
      | .plain text :: rest => readVerb specs (progress.take text) rest
      | rest => readVerb specs { progress with taken := true } rest
  | .plain text :: rest =>
    if progress.taken then
      readVerb specs { progress with extras := progress.extras ++ [text] } rest
    else
      match rest with
      | .separator :: rest => readVerb specs (progress.take text) rest
      | rest => readVerb specs (progress.take text) rest

/-- The options before the command, the arguments nobody wants, the command and what follows it. -/
structure Front where
  progress : Progress
  command : Text
  rest : List Text

def readFront (progress : Progress) : List (Text × Argument) → Except UsageProblem Front
  | [] => .error .noCommand
  | (_, .option use) :: rest => do
    let expansion ← expand globalOptions use
    match expansion.pending with
    | none =>
      let progress ← progress.set expansion []
      readFront progress rest
    | some spec =>
      match rest with
      | (_, .plain value) :: rest =>
        let progress ← progress.set expansion value
        readFront progress rest
      | _ => .error (.expectedValue spec.title)
  | (_, .unknown text) :: rest =>
    readFront { progress with extras := progress.extras ++ [text] } rest
  | (text, .separator) :: rest =>
    if rest.isEmpty then .error .noCommand else .ok ⟨progress, text, rest.map (·.1)⟩
  | (text, .plain _) :: rest => .ok ⟨progress, text, rest.map (·.1)⟩

def within {α : Type} (verb : Option Verb) : Except UsageProblem α → Except UsageFault α
  | .ok value => .ok value
  | .error problem => .error ⟨verb, problem⟩

def parse (arguments : List Text) : Except UsageFault Request := do
  let read ← within none (readArguments globalOptions arguments)
  let front ← within none (readFront .start (arguments.zip read))
  match verbs.find? fun verb => verb.label == front.command with
  | none => .error ⟨none, .invalidCommand front.command⟩
  | some verb =>
    let specs := verbOptions verb
    let read ← within (some verb) (readArguments specs front.rest)
    let progress ← within (some verb) (readVerb specs .start read)
    let extras := front.progress.extras ++ progress.extras
    if extras.isEmpty then
      .ok { verb
            path := progress.path.getD ['.']
            settings := front.progress.settings ++ progress.settings }
    else .error ⟨none, .unrecognized extras⟩

end SourceAtlas.Command
