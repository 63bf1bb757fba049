import SourceAtlas.Binary64
import SourceAtlas.Entries
import SourceAtlas.Text.Case
import SourceAtlas.Text.Integer

/-!
# Documents

The value of a configuration file, whichever format it is written in. Keys are texts, whatever they are
in the file. YAML is read by a reader that is given to the program.
-/

namespace SourceAtlas

/-- A value of a configuration file. `moment` stands for dates and whatever else no setting accepts;
a run of bytes is the list of their numbers. -/
inductive Document where
  | null
  | bool (value : Bool)
  | int (value : Int)
  | real (value : Binary64)
  | text (value : Text)
  | moment (value : Text)
  | list (items : List Document)
  | table (entries : List (Text × Document))
  deriving Repr

/-- What a reader makes of a text: a document, a document that contains itself, an error of the text,
or an error of its own. -/
inductive YamlReading where
  | document (value : Document)
  | endless
  | malformed (detail : Text)
  | failed (message : Text)

abbrev YamlReader := Text → YamlReading

namespace Document

def scalarText? : Document → Option Text
  | .text value => some value
  | .int value => some (intText value)
  | .real value => some value.text
  | .bool true => some "True".toList
  | .bool false => some "False".toList
  | _ => none

/-- Whether a value is an integer with too many digits to be written. -/
def isLongNumber : Document → Bool
  | .int value => digitLimit < (natText value.natAbs).length
  | _ => false

def isFalsy : Document → Bool
  | .null => true
  | .bool value => !value
  | .int value => value == 0
  | .real value => value.isZero
  | .text value => value.isEmpty
  | .moment _ => false
  | .list items => items.isEmpty
  | .table entries => entries.isEmpty

def normaliseKey (key : Text) : Text :=
  lower (key.filter fun c => c != '_' && c != '-')

mutual

/-- A document with all its keys normalised. Of keys that become equal the last value is kept. -/
def normalise : Document → Document
  | .list items => .list (normaliseItems items)
  | .table entries => .table (Entries.ofPairs (normaliseEntries entries))
  | .null => .null
  | .bool value => .bool value
  | .int value => .int value
  | .real value => .real value
  | .text value => .text value
  | .moment value => .moment value

def normaliseItems : List Document → List Document
  | [] => []
  | item :: rest => normalise item :: normaliseItems rest

def normaliseEntries : List (Text × Document) → List (Text × Document)
  | [] => []
  | (key, value) :: rest => (normaliseKey key, normalise value) :: normaliseEntries rest

end

end Document

end SourceAtlas
