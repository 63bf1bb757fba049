import SourceAtlas.Document.Json
import SourceAtlas.FileTree.Access
import SourceAtlas.Settings

/-!
# Loading settings

Settings are found in a directory by the names of their files, or at a path of their own. They are
YAML by extension and JSON otherwise.
-/

namespace SourceAtlas

namespace Document

/-- The entries of a table; anything else has none. -/
def tableEntries : Document → List (Text × Document)
  | .table entries => entries
  | _ => []

/-- The items of a list; anything else has none. -/
def listItems : Document → List Document
  | .list items => items
  | _ => []

def field (document : Document) (key : String) : Document :=
  (document.tableEntries.lookup key.toList).getD .null

/-- Texts: those of a list, or a single one. -/
def texts : Document → List Text
  | .text value => [value]
  | .list items => items.filterMap scalarText?
  | _ => []

def integer? : Document → Option Int
  | .int value => some value
  | .text value => parseInt? value
  | _ => none

/-- Whether one of the values under some keys, or of the items under others, is too long a number. -/
def asksLongNumber (document : Document) (keys listKeys : List String) : Bool :=
  keys.any (fun key => (document.field key).isLongNumber) ||
    listKeys.any fun key => (document.field key).listItems.any isLongNumber

def filled? (document : Document) : Option Document :=
  if document.tableEntries.isEmpty then none else some document

def tables (document : Document) : List Document :=
  document.listItems.filter fun
    | .table _ => true
    | _ => false

end Document

def Rule.ofDocument (document : Document) (defaultName : Text) : Rule :=
  let name := ((document.field "name").scalarText?).getD []
  { name := if name.isEmpty then defaultName else name
    description := (document.field "description").scalarText?
    includePaths := (document.field "paths").texts
    excludePaths := (document.field "excludedpaths").texts
    includeNames := (document.field "patterns").texts
    excludeNames := (document.field "excludedpatterns").texts
    extensions := (document.field "extensions").texts }

def Rule.asksLongNumber (document : Document) : Bool :=
  document.asksLongNumber ["name", "description"]
    ["paths", "excludedpaths", "patterns", "excludedpatterns", "extensions"]

def ReportSpec.ofDocument (document : Document) : ReportSpec :=
  { name := ((document.field "name").scalarText?).getD []
    description := (document.field "description").scalarText?
    categories := (document.field "includedcategories").texts }

def LayoutSettings.ofDocument (document : Document) : LayoutSettings :=
  { description := (document.field "description").scalarText?
    excludedPaths := (document.field "excludedpaths").texts
    excludedExtensions := (document.field "excludedextensions").texts }

/-- Heading levels from one to five are kept, others moved to the nearest of them. -/
def clampLevel (level : Int) : Int :=
  max 1 (min level 5)

def MarkdownStyle.ofDocument (document : Document) : MarkdownStyle :=
  let style := ((document.field "codeblockstyle").scalarText?).getD []
  { headerLevel :=
      ((document.field "headerlevel").integer?.map clampLevel).getD standard.headerLevel
    codeBlockStyle := if style.isEmpty then standard.codeBlockStyle else lower style }

namespace Settings

def ofDocument (source : Path) (document : Document) : Settings :=
  let markdown := document.field "markdown"
  let templates := ((markdown.field "templatesdir").scalarText?).getD []
  { source
    layout := (document.field "projectstructure").filled?.map LayoutSettings.ofDocument
    endpoints := (document.field "apiendpoints").filled?.map fun rule =>
      Rule.ofDocument rule "apiEndpoints".toList
    categories := (document.field "categories").tables.map fun rule => Rule.ofDocument rule []
    reports := (document.field "generatedfiles").tables.map ReportSpec.ofDocument
    style := MarkdownStyle.ofDocument markdown
    templatesDir :=
      if templates.isEmpty then none else some (source.parent.join (.ofText templates)) }

/-- Whether settings ask for the text of an integer with too many digits. -/
def asksLongNumber (document : Document) : Bool :=
  (document.field "projectstructure").asksLongNumber ["description"]
      ["excludedpaths", "excludedextensions"] ||
    Rule.asksLongNumber (document.field "apiendpoints") ||
    (document.field "categories").tables.any Rule.asksLongNumber ||
    (document.field "generatedfiles").tables.any
      (·.asksLongNumber ["name", "description"] ["includedcategories"]) ||
    (document.field "markdown").asksLongNumber ["codeblockstyle", "templatesdir"] []

/-- The names of settings files, in the order in which they are looked for. -/
def fileNames : List Text :=
  ["ai-scan-config.json", "ai-scan-config.yml", "ai-scan-config.yaml",
    "ai-scan-config.example.json"].map String.toList

/-- Why settings could not be loaded. A number that is too long has a known number of digits if it
stands in the file as such. -/
inductive LoadFault where
  | noneFound (directory : Path)
  | missing (file : Path)
  | unreadable (file : Path) (fault : FileFault)
  | undecodable (fault : Utf8.Fault)
  | malformedYaml (name detail : Text)
  | malformedJson (name content : Text) (fault : Json.Fault)
  | endless
  | failedReader (message : Text)
  | longNumber (digits : Option Nat)
  | notTable (name : Text)
  | unusable (fault : SettingsFault)

def LoadFault.message : LoadFault → Text
  | .noneFound directory =>
    "No configuration file found in ".toList ++ directory.text ++ ". Expected: ".toList ++
      joinWith " or ".toList fileNames
  | .missing file => "Configuration file not found: ".toList ++ file.text
  | .unreadable file fault =>
    "Failed to read ".toList ++ file.text ++ ": ".toList ++ fault.message
  | .undecodable fault => fault.message
  | .malformedYaml name detail => "Failed to parse ".toList ++ name ++ ": ".toList ++ detail
  | .malformedJson name content fault =>
    "Error parsing configuration JSON in ".toList ++ name ++ ": ".toList ++ fault.message content
  | .endless => "maximum recursion depth exceeded".toList
  | .failedReader message => message
  | .longNumber digits =>
    "Exceeds the limit (".toList ++ natText digitLimit ++
      " digits) for integer string conversion".toList ++
      (match digits with
      | some count => ": value has ".toList ++ natText count ++ " digits".toList
      | none => []) ++
      "; use sys.set_int_max_str_digits() to increase the limit".toList
  | .notTable name => name ++ " must contain a mapping at the root".toList
  | .unusable fault => fault.message

/-- Whether a fault is reported as one of the configuration. The others end the program. -/
def LoadFault.isReported : LoadFault → Bool
  | .undecodable _ => false
  | .endless => false
  | .failedReader _ => false
  | .longNumber _ => false
  | _ => true

def find (tree : FileTree) (here directory : Path) : Except LoadFault Path :=
  match fileNames.find? fun name => tree.isFileAt here (directory.join (.ofText name)) with
  | some name => .ok (tree.resolve here (directory.join (.ofText name)))
  | none => .error (.noneFound directory)

def isYamlName (name : Text) : Bool :=
  [".yml", ".yaml"].any fun ending => lower (extensionOf name) == ending.toList

/-- The document in a text. A blank text is an empty table, and so is a YAML value that is empty,
zero or false. -/
def parseDocument (yaml : YamlReader) (name content : Text) : Except LoadFault Document :=
  if isBlankText content then .ok (.table [])
  else if isYamlName name then
    match yaml content with
    | .document value => .ok (if value.isFalsy then .table [] else value)
    | .endless => .error .endless
    | .malformed detail => .error (.malformedYaml name detail)
    | .failed message => .error (.failedReader message)
  else
    match Json.parse content with
    | .ok document => .ok document
    | .error (.malformed fault) => .error (.malformedJson name content fault)
    | .error (.longNumber digits) => .error (.longNumber (some digits))

def parse (yaml : YamlReader) (source : Path) (content : Bytes) : Except LoadFault Settings :=
  match Utf8.decode content with
  | .error fault => .error (.undecodable fault)
  | .ok text =>
    match parseDocument yaml source.name text with
    | .error fault => .error fault
    | .ok document =>
      match document.normalise with
      | .table entries =>
        let settings := ofDocument source (.table entries)
        if asksLongNumber (.table entries) then .error (.longNumber none)
        else
          match settings.fault? with
          | some fault => .error (.unusable fault)
          | none => .ok settings
      | _ => .error (.notTable source.name)

/-- Where settings are: in a directory under one of their names, or at the path itself. The path is
given with home directories expanded. -/
def locate (tree : FileTree) (here path : Path) : Except LoadFault Path :=
  if tree.isDirectoryAt here path then find tree here path else .ok (tree.resolve here path)

def load (yaml : YamlReader) (tree : FileTree) (here path : Path) : Except LoadFault Settings :=
  match locate tree here path with
  | .error fault => .error fault
  | .ok source =>
    if !tree.pathExists here source then .error (.missing source)
    else
      match tree.read here source with
      | .error fault => .error (.unreadable source fault)
      | .ok content => parse yaml source content

end Settings

end SourceAtlas
