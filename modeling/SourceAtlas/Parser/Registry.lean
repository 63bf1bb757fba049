import SourceAtlas.Parser.Brace
import SourceAtlas.Parser.Script

/-!
# Parsers

A registry maps a file extension to the first parser that claims it. The built-in parsers come
first; plug-ins follow in the order in which they are found.
-/

namespace SourceAtlas

/-- A parser for files of some extensions. Parsing may fail with a reason. -/
structure Parser where
  name : Text
  extensions : List Text
  parse : Source → Except Text FileSummary

namespace Parser

def supports (parser : Parser) (extension : Text) : Bool :=
  parser.extensions.contains (lower extension)

def csharp : Parser :=
  { name := "csharp".toList
    extensions := [".cs".toList]
    parse := fun source => .ok (scanBraceSource .csharp source) }

def typescript : Parser :=
  { name := "typescript".toList
    extensions := [".ts".toList, ".tsx".toList]
    parse := fun source => .ok (scanBraceSource .typescript source) }

def gdscript : Parser :=
  { name := "gdscript".toList
    extensions := [".gd".toList]
    parse := fun source => .ok (Script.scan source) }

def builtins : List Parser :=
  [csharp, typescript, gdscript]

end Parser

/-- What loading a plug-in gives: a parser, a class or factory that makes one when it is called, or
something else. -/
inductive PluginContent where
  | parser (parser : Parser)
  | maker (made : Option Parser)
  | notParser
  | loadFailure (reason : Text)

def PluginContent.parser? : PluginContent → Option Parser
  | .parser given => some given
  | .maker made => made
  | _ => none

/-- A plug-in under its name. -/
structure Plugin where
  name : Text
  content : PluginContent

/-- Why parsers could not be put together. -/
inductive DiscoveryError where
  | loadFailure (name reason : Text)
  | notParser
  deriving DecidableEq, Repr

def DiscoveryError.message : DiscoveryError → Text
  | .loadFailure name reason =>
    "Failed to load parser entry point '".toList ++ name ++ "': ".toList ++ reason
  | .notParser => "Parser entry point must be a FileParser subclass or factory".toList

/-- Adds the plug-ins one after the other. Every plug-in is loaded, but one whose name was seen
before, in any letter case, is not used. -/
def addPlugins (parsers : List Parser) (seen : List Text) :
    List Plugin → Except DiscoveryError (List Parser)
  | [] => .ok parsers
  | plugin :: rest =>
    match plugin.content with
    | .loadFailure reason => .error (.loadFailure plugin.name reason)
    | content =>
      if seen.contains (lower plugin.name) then addPlugins parsers seen rest
      else
        match content.parser? with
        | some parser => addPlugins (parsers ++ [parser]) (lower plugin.name :: seen) rest
        | none => .error .notParser

def discoverParsers (plugins : List Plugin) : Except DiscoveryError (List Parser) :=
  addPlugins Parser.builtins (Parser.builtins.map (·.name)) plugins

/-- Parsers with a table from extensions in lower case to the first of them that claims it. -/
structure Registry where
  parsers : List Parser
  byExtension : Entries Text Parser

namespace Registry

def ofParsers (parsers : List Parser) : Registry :=
  { parsers
    byExtension := parsers.foldl (fun table parser =>
      parser.extensions.foldl (fun table extension =>
        Entries.putNew (lower extension) parser table) table) [] }

def builtin : Registry :=
  ofParsers Parser.builtins

def extensions (registry : Registry) : List Text :=
  (registry.byExtension.map (·.1)).mergeSort fun first second => !decide (second < first)

def parserFor? (registry : Registry) (extension : Text) : Option Parser :=
  registry.byExtension.lookup (lower extension)

def parse? (registry : Registry) (source : Source) : Option (Except Text FileSummary) :=
  (registry.parserFor? source.extension).map fun parser => parser.parse source

end Registry

/-- What scanning one source gave: a summary, or a reason why its parser failed. -/
structure ScanResult where
  file : FileSummary
  failure : Option Text

/-- Scans one source. A source that nothing could be made of has a blank summary. -/
def Registry.scan (registry : Registry) (source : Source) : ScanResult :=
  match registry.parse? source with
  | some (.ok file) => ⟨file, none⟩
  | some (.error reason) => ⟨.blank source.path source.extension, some reason⟩
  | none => ⟨.blank source.path source.extension, none⟩

/-- Scans sources in order. Gives the summaries and the paths of those without types. -/
def Registry.scanAll (registry : Registry) (sources : List Source) :
    List FileSummary × List Text :=
  let scanned := sources.map fun source => (source.path, (registry.scan source).file)
  (scanned.map (·.2), (scanned.filter fun (_, file) => !file.isParsed).map (·.1))

end SourceAtlas
