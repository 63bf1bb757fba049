import SourceAtlas.Text.Basic
import SourceAtlas.Text.Digit

/-!
# Options on a command line

An option has a short or a long name and may take a value. A long name may be shortened as long as
it stays clear, a value may follow an equals sign, and short flags may be joined. Two dashes end the
options.
-/

namespace SourceAtlas.Command

/-- What an option is for. -/
inductive OptionKey where
  | help
  | verbose
  | quiet
  | logFile
  | config
  | workers
  | outputDir
  | dryRun
  deriving DecidableEq, Repr

/-- An option: its names and whether it takes a value. -/
structure OptionSpec where
  key : OptionKey
  names : List Text
  takesValue : Bool
  deriving DecidableEq, Repr

def OptionSpec.title (spec : OptionSpec) : Text :=
  joinWith ['/'] spec.names

/-- A value joined to an option: whether an equals sign stands before it, and its text. -/
structure JoinedValue where
  afterEquals : Bool
  text : Text
  deriving DecidableEq, Repr

/-- An option as it was written. -/
structure OptionUse where
  spec : OptionSpec
  name : Text
  value : Option JoinedValue
  deriving DecidableEq, Repr

/-- An argument: the two dashes, an option, what looks like an unknown option, or anything else. -/
inductive Argument where
  | separator
  | option (use : OptionUse)
  | unknown (text : Text)
  | plain (text : Text)
  deriving DecidableEq, Repr

/-- Why a command line is not run: it asks for help, or something is wrong with it. -/
inductive UsageProblem where
  | help
  | ambiguous (argument : Text) (names : List Text)
  | expectedValue (option : Text)
  | ignoredValue (option value : Text)
  | invalidCount (option value : Text)
  | invalidCommand (given : Text)
  | noCommand
  | unrecognized (arguments : List Text)
  deriving DecidableEq, Repr

def findOption? (specs : List OptionSpec) (name : Text) : Option OptionSpec :=
  specs.find? fun spec => spec.names.contains name

def namedOptions (specs : List OptionSpec) : List (Text × OptionSpec) :=
  specs.flatMap fun spec => spec.names.map fun name => (name, spec)

def splitEquals (text : Text) : Text × Option JoinedValue :=
  let name := text.takeWhile (· != '=')
  match text.drop name.length with
  | [] => (name, none)
  | _ :: value => (name, some ⟨true, value⟩)

/-- The options that an argument may stand for. A long name may be shortened; a short one may have
more letters joined to it. -/
def candidates (specs : List OptionSpec) (argument : Text) : List OptionUse :=
  if startsWith "--".toList argument then
    let (start, value) := splitEquals argument
    (namedOptions specs).filterMap fun (name, spec) =>
      if startsWith start name then some ⟨spec, name, value⟩ else none
  else
    (namedOptions specs).filterMap fun (name, spec) =>
      if name = argument.take 2 then some ⟨spec, name, some ⟨false, argument.drop 2⟩⟩
      else if startsWith argument name then some ⟨spec, name, none⟩
      else none

/-- Whether a text is a negative number in digits, with or without a point. A line break at its end
does not matter. -/
def isNegativeNumber (text : Text) : Bool :=
  match text with
  | '-' :: body =>
    let body := if body.getLast? == some '\n' then body.dropLast else body
    let whole := body.takeWhile isDecimalDigit
    match body.drop whole.length with
    | [] => !whole.isEmpty
    | '.' :: fraction => !fraction.isEmpty && fraction.all isDecimalDigit
    | _ => false
  | _ => false

/-- Reads one argument that is not the separator. -/
def readArgument (specs : List OptionSpec) (argument : Text) : Except UsageProblem Argument :=
  if argument.head? != some '-' then .ok (.plain argument)
  else
    match findOption? specs argument with
    | some spec => .ok (.option ⟨spec, argument, none⟩)
    | none =>
      if argument.length = 1 then .ok (.plain argument)
      else
        let (name, value) := splitEquals argument
        match value.bind fun _ => findOption? specs name with
        | some spec => .ok (.option ⟨spec, name, value⟩)
        | none =>
          match candidates specs argument with
          | [use] => .ok (.option use)
          | [] =>
            if isNegativeNumber argument || argument.contains ' ' then .ok (.plain argument)
            else .ok (.unknown argument)
          | uses => .error (.ambiguous argument (uses.map (·.name)))

def readArguments (specs : List OptionSpec) : List Text → Except UsageProblem (List Argument)
  | [] => .ok []
  | argument :: rest =>
    if argument = "--".toList then .ok (.separator :: rest.map .plain)
    else do
      let first ← readArgument specs argument
      let others ← readArguments specs rest
      .ok (first :: others)

/-- What an option comes to: flags and values that are set, letters that name no option, and an
option that still needs its value. -/
structure Expansion where
  set : List (OptionSpec × Text)
  leftover : Option Text
  pending : Option OptionSpec
  deriving DecidableEq, Repr

/-- A flag or an option that has to take its value from the next argument. -/
def expandBare (spec : OptionSpec) : Expansion :=
  if spec.takesValue then ⟨[], none, some spec⟩ else ⟨[(spec, [])], none, none⟩

def expandEquals (spec : OptionSpec) (value : Text) : Except UsageProblem Expansion :=
  if spec.takesValue then .ok ⟨[(spec, value)], none, none⟩
  else .error (.ignoredValue spec.title value)

def expandLetters (specs : List OptionSpec) (spec : OptionSpec) :
    Text → Except UsageProblem Expansion
  | [] => expandEquals spec []
  | letter :: rest =>
    if spec.takesValue then .ok ⟨[(spec, letter :: rest)], none, none⟩
    else if letter = '-' then .error (.ignoredValue spec.title (letter :: rest))
    else
      match findOption? specs ['-', letter] with
      | none => .ok ⟨[(spec, [])], some ('-' :: letter :: rest), none⟩
      | some next => do
        let more ← match rest with
          | [] => .ok (expandBare next)
          | '=' :: value => expandEquals next value
          | letters => expandLetters specs next letters
        .ok { more with set := (spec, []) :: more.set }

def expand (specs : List OptionSpec) (use : OptionUse) : Except UsageProblem Expansion :=
  match use.value with
  | none => .ok (expandBare use.spec)
  | some ⟨true, value⟩ => expandEquals use.spec value
  | some ⟨false, letters⟩ => expandLetters specs use.spec letters

end SourceAtlas.Command
