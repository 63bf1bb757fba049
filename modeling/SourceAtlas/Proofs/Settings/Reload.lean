import Mathlib.Data.List.Find
import SourceAtlas.Proofs.FileTree.Avoid
import SourceAtlas.Proofs.Settings.Load

/-!
# Loading settings again

Settings are loaded as before when neither their file nor the directory that they are looked for in
is where the change was, and no link leads there.
-/

namespace SourceAtlas

namespace Settings

open FileTree

variable {tree after : FileTree} {here path : Path} {above : List Text} {name : Text}
  {yaml : YamlReader} {settings : Settings}

/-! ## Where settings come from -/

theorem exists_read_of_load (hdirectory : tree.isDirectoryAt here path = false)
    (h : load yaml tree here path = .ok settings) :
    ∃ content, tree.read here (tree.resolve here path) = .ok content := by
  have hlocate : locate tree here path = .ok (tree.resolve here path) := by
    unfold locate
    rw [hdirectory]
    rfl
  unfold load at h
  rw [hlocate] at h
  cases hread : tree.read here (tree.resolve here path) with
  | ok content => exact ⟨content, rfl⟩
  | error fault =>
    simp only [hread] at h
    split at h <;> cases h

def candidate? (tree : FileTree) (here directory : Path) : Option Text :=
  fileNames.find? fun name => tree.isFileAt here (directory.join (.ofText name))

theorem isFileAt_of_candidate (h : candidate? tree here path = some name) :
    tree.isFileAt here (path.join (.ofText name)) = true :=
  List.find?_some (p := fun name => tree.isFileAt here (path.join (.ofText name))) h

theorem isDirectoryAt_of_isFileAt (h : tree.isFileAt here path = true) :
    tree.isDirectoryAt here path = false := by
  unfold isFileAt at h
  unfold isDirectoryAt
  obtain ⟨node, hnode, hfile⟩ := (Option.any_eq_true _ _).mp h
  rw [hnode]
  cases node <;> first | rfl | cases hfile

/-- A file that settings were loaded from can be opened. -/
theorem exists_spot_of_load (hfile : tree.isFileAt here path = true)
    (h : load yaml tree here path = .ok settings) :
    ∃ place content, tree.spot here path = .ok (.node place (.file content)) := by
  obtain ⟨content, hread⟩ := exists_read_of_load (isDirectoryAt_of_isFileAt hfile) h
  obtain ⟨node, hnode, hisFile⟩ := (Option.any_eq_true _ _).mp hfile
  obtain ⟨place, hspot⟩ := exists_spot_of_node? hnode
  cases node with
  | file content => exact ⟨place, content, hspot⟩
  | locked problem =>
    obtain ⟨other, hother⟩ := exists_spot_of_read hread
    cases (spot_resolve hspot nofun).symm.trans hother
  | link target => cases hisFile
  | directory entries => cases hisFile

theorem load_of_candidate (hdirectory : tree.isDirectoryAt here path = true)
    (h : candidate? tree here path = some name) :
    load yaml tree here path = load yaml tree here (path.join (.ofText name)) := by
  have hfile := isDirectoryAt_of_isFileAt (isFileAt_of_candidate h)
  have hlocate : locate tree here path = locate tree here (path.join (.ofText name)) := by
    unfold candidate? at h
    unfold locate find
    rw [if_pos hdirectory, h, hfile]
    rfl
  unfold load
  rw [hlocate]

theorem exists_candidate_of_load (hdirectory : tree.isDirectoryAt here path = true)
    (h : load yaml tree here path = .ok settings) : ∃ name, candidate? tree here path = some name := by
  cases hname : candidate? tree here path with
  | some name => exact ⟨name, rfl⟩
  | none =>
    unfold candidate? at hname
    unfold load locate find at h
    rw [if_pos hdirectory, hname] at h
    cases h

/-! ## Loading again -/

section Within

variable (h : Within (above ++ [overviewDirectory]) tree after)
  (hlinks : LinksAvoid tree (above ++ [overviewDirectory]))
  (hapart : ∀ place node, tree.spot here (tree.resolve here path) = .ok (.node place node) →
    ¬ above ++ [overviewDirectory] <+: place)

include h hapart

theorem load_file_of_within (hdirectory : tree.isDirectoryAt here path = false)
    (hload : load yaml tree here path = .ok settings) : load yaml after here path = .ok settings := by
  obtain ⟨content, hread⟩ := exists_read_of_load hdirectory hload
  obtain ⟨place, hspot⟩ := exists_spot_of_read hread
  have hview : after.view place = some (.file content) :=
    (h.outside (hapart place _ hspot)).trans (view_of_spot hspot)
  have hafter : after.spot here (after.resolve here path) = .ok (.node place (.file content)) := by
    rw [h.resolve_eq]
    exact spot_of_keeps hspot h.keeps hview
  have hfalse : after.isDirectoryAt here path = false := by
    rw [← Bool.not_eq_true, isDirectoryAt_iff]
    rintro ⟨stop, entries, hway⟩
    cases (spot_resolve (locate_of_leads hway) nofun).symm.trans hafter
  rw [load_of_read hdirectory hread] at hload
  rw [load_of_read hfalse (read_of_spot hafter), h.resolve_eq, hload]

include hlinks

/-- In a directory the same file is found, with the same content. -/
theorem load_directory_of_within (hdirectory : tree.isDirectoryAt here path = true)
    (hload : load yaml tree here path = .ok settings) : load yaml after here path = .ok settings := by
  obtain ⟨stop, entries, hway⟩ := isDirectoryAt_iff.mp hdirectory
  have hstop := hapart stop _ (spot_resolve (locate_of_leads hway) nofun)
  have hnames : ∀ name ∈ fileNames, Path.ofText name = ⟨false, [name]⟩ ∧
      name ≠ overviewDirectory ∧ name ≠ "..".toList := by decide
  have havoids : ∀ name ∈ fileNames, Avoids tree (above ++ [overviewDirectory]) maxLinks []
      (here.join (path.join (.ofText name))).parts := by
    intro name hname
    obtain ⟨htext, hother, hnamed⟩ := hnames name hname
    have hparts : (here.join (path.join (.ofText name))).parts = (here.join path).parts ++ [name] := by
      rw [htext]
      unfold Path.join
      cases path.absolute <;> simp
    rw [hparts]
    refine hway.avoids_append (hlinks.avoids_entry (view_of_at? hway.at?_eq) hnamed ?_)
    intro hinside
    obtain hsame | hinside := List.prefix_concat_iff.mp hinside
    · exact hother (List.singleton_inj.mp (List.append_inj_right' hsame rfl)).symm
    · exact hstop hinside
  have hcandidate : candidate? after here path = candidate? tree here path := by
    refine List.find?_congr fun name hname => ?_
    exact (isFileAt_and_isDirectoryAt_congr (h.label_eq (havoids name hname))).1
  obtain ⟨name, hname⟩ := exists_candidate_of_load hdirectory hload
  rw [load_of_candidate hdirectory hname] at hload
  rw [load_of_candidate (isDirectoryAt_of_keeps hdirectory h.keeps) (hcandidate.trans hname)]
  -- the file that was found is read and resolved as before
  have hmem : name ∈ fileNames := List.mem_of_find?_eq_some hname
  obtain ⟨place, content, hspot⟩ := exists_spot_of_load (isFileAt_of_candidate hname) hload
  obtain ⟨other, hspotAfter⟩ :=
    exists_spot_of_read ((h.read_eq (havoids name hmem)).trans (read_of_spot hspot))
  have hplace : other = place := by
    have hresolve := h.resolve_eq here (path.join (.ofText name))
    rw [resolve_of_spot hspot, resolve_of_spot hspotAfter] at hresolve
    exact congrArg Path.parts hresolve
  rw [load_of_spot hspot] at hload
  rw [load_of_spot hspotAfter, hplace, hload]

end Within

theorem load_of_within (h : Within (above ++ [overviewDirectory]) tree after)
    (hlinks : LinksAvoid tree (above ++ [overviewDirectory]))
    (hapart : ∀ place node, tree.spot here (tree.resolve here path) = .ok (.node place node) →
      ¬ above ++ [overviewDirectory] <+: place)
    (hload : load yaml tree here path = .ok settings) : load yaml after here path = .ok settings := by
  cases hdirectory : tree.isDirectoryAt here path with
  | true => exact load_directory_of_within h hlinks hapart hdirectory hload
  | false => exact load_file_of_within h hapart hdirectory hload

end Settings

end SourceAtlas
