import SourceAtlas.Command.Run
import SourceAtlas.Proofs.FileTree.Resolve
import SourceAtlas.Proofs.Text.Utf8

/-!
# Loading a settings file

A file that can be opened is always found and read, so loading it comes down to its content. Whatever
reader is used for YAML, the result is usable settings, a configuration error, or one of the faults that
are not reported as such: the content is no UTF-8, the reader fails or gives a document that contains
itself, or an integer has too many digits to be read or written.
-/

namespace SourceAtlas.Settings

open FileTree Command

variable {yaml : YamlReader} {tree : FileTree} {here path source : Path} {place : List Text}
  {content : Bytes} {name text : Text} {fault : LoadFault}

/-- Without a directory at its path, a settings file is read where the path is resolved to. -/
theorem load_of_read (hdirectory : tree.isDirectoryAt here path = false)
    (hread : tree.read here (tree.resolve here path) = .ok content) :
    load yaml tree here path = parse yaml (tree.resolve here path) content := by
  have hlocate : locate tree here path = .ok (tree.resolve here path) := by
    unfold locate
    rw [hdirectory]
    rfl
  have hexists : tree.pathExists here (tree.resolve here path) = true := by
    unfold pathExists
    rw [node?_of_read hread]
    rfl
  unfold load
  rw [hlocate]
  simp [hexists, hread]

theorem isDirectoryAt_eq_false (h : tree.spot here path = .ok (.node place (.file content))) :
    tree.isDirectoryAt here path = false := by
  unfold isDirectoryAt
  rw [node?_of_spot h]
  rfl

theorem load_of_spot (h : tree.spot here path = .ok (.node place (.file content))) :
    load yaml tree here path = parse yaml ⟨true, place⟩ content := by
  rw [load_of_read (isDirectoryAt_eq_false h) (read_of_spot (spot_resolve h nofun)),
    resolve_of_spot h]
  rfl

/-- The faults of a text that are not reported: those of the reader, and numbers that are too long. -/
inductive Stumbles (yaml : YamlReader) (name text : Text) : LoadFault → Prop where
  | endless (filled : isBlankText text = false) (format : isYamlName name = true)
      (read : yaml text = .endless) : Stumbles yaml name text .endless
  | failed {message : Text} (filled : isBlankText text = false) (format : isYamlName name = true)
      (read : yaml text = .failed message) : Stumbles yaml name text (.failedReader message)
  | longNumber {digits : Nat} (filled : isBlankText text = false) (format : isYamlName name = false)
      (read : Json.parse text = .error (.longNumber digits)) :
      Stumbles yaml name text (.longNumber (some digits))
  | longText {document : Document} {entries : List (Text × Document)}
      (read : parseDocument yaml name text = .ok document)
      (table : document.normalise = .table entries) (asked : asksLongNumber (.table entries) = true) :
      Stumbles yaml name text (.longNumber none)

theorem Stumbles.failureText? (h : Stumbles yaml name text fault) :
    failureText? (.settings fault) = none := by
  cases h <;> rfl

/-- Settings that are not YAML by name are the same for every reader. -/
theorem parse_of_isYamlName (h : isYamlName source.name = false)
    (other : YamlReader) : parse yaml source content = parse other source content := by
  unfold parse parseDocument
  simp only [h, Bool.false_eq_true, if_false]

end SourceAtlas.Settings
