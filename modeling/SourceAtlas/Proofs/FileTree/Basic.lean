import Mathlib.Logic.Function.Basic
import SourceAtlas.FileTree.Basic

/-!
# Views of file trees

A tree is seen as a function from places to what stands there. Putting a file or an empty directory at
a free name, or in the place of a file, changes this function at that one place.
-/

namespace SourceAtlas.FileTree

open List Option

/-- What stands at a place, without what is below it. -/
inductive Label where
  | file (content : Bytes)
  | locked (problem : FileProblem)
  | link (target : Path)
  | directory

def label : FileTree → Label
  | .file content => .file content
  | .locked problem => .locked problem
  | .link target => .link target
  | .directory _ => .directory

def view (tree : FileTree) (place : List Text) : Option Label :=
  (tree.at? place).map label

variable {tree node : FileTree} {place : List Text} {entries : List (Text × FileTree)} {name : Text}

/-! ## Places -/

theorem at?_nil (tree : FileTree) : tree.at? [] = some tree := by
  cases tree <;> rfl

theorem at?_append (tree : FileTree) (first rest : List Text) :
    tree.at? (first ++ rest) = (tree.at? first).bind (·.at? rest) := by
  induction first generalizing tree with
  | nil => cases tree <;> rfl
  | cons name first ih =>
    cases tree with
    | directory entries =>
      rw [cons_append, at?, at?, bind_assoc]
      exact congrArg _ (funext fun child => ih child)
    | file content => rfl
    | locked problem => rfl
    | link target => rfl

theorem view_of_at? (h : tree.at? place = some node) : tree.view place = some node.label := by
  rw [view, h, map_some]

/-- The entries of a directory are what stands at the places below it. -/
theorem lookup_eq_at? (h : tree.at? place = some (.directory entries)) (name : Text) :
    entries.lookup name = tree.at? (place ++ [name]) := by
  rw [at?_append, h, bind_some, at?]
  cases entries.lookup name with
  | none => rfl
  | some child => cases child <;> rfl

theorem mem_of_lookup (h : entries.lookup name = some node) : (name, node) ∈ entries := by
  obtain ⟨before, after, rfl, -⟩ := lookup_eq_some_iff.mp h
  exact mem_append_right _ mem_cons_self

theorem view_cons (entries : List (Text × FileTree)) (name : Text) (rest : List Text) :
    (directory entries).view (name :: rest) = (entries.lookup name).bind (·.view rest) := by
  rw [view, at?, Option.map_bind]
  rfl

theorem view_eq_directory_iff :
    tree.view place = some .directory ↔ ∃ entries, tree.at? place = some (.directory entries) := by
  unfold view
  cases tree.at? place with
  | none => simp
  | some node => cases node <;> simp [label]

theorem view_eq_link_iff {target : Path} :
    tree.view place = some (.link target) ↔ tree.at? place = some (.link target) := by
  unfold view
  cases tree.at? place with
  | none => simp
  | some node => cases node <;> simp [label]

theorem view_eq_file_iff {content : Bytes} :
    tree.view place = some (.file content) ↔ tree.at? place = some (.file content) := by
  unfold view
  cases tree.at? place with
  | none => simp
  | some node => cases node <;> simp [label]

theorem view_eq_locked_iff {problem : FileProblem} :
    tree.view place = some (.locked problem) ↔ tree.at? place = some (.locked problem) := by
  unfold view
  cases tree.at? place with
  | none => simp
  | some node => cases node <;> simp [label]

theorem view_eq_none_iff : tree.view place = none ↔ tree.at? place = none :=
  map_eq_none_iff

/-! ## Puts -/

theorem lookup_cons_of_ne {key other : Text} (h : other ≠ key) (child : FileTree)
    (entries : List (Text × FileTree)) :
    lookup other ((key, child) :: entries) = entries.lookup other := by
  rw [lookup_cons, beq_eq_false_iff_ne.mpr h]

theorem lookup_putEntry_self (name : Text) (node : FileTree) (entries : List (Text × FileTree)) :
    (putEntry name node entries).lookup name = some node := by
  induction entries with
  | nil => exact lookup_cons_self
  | cons entry entries ih =>
    obtain ⟨key, child⟩ := entry
    rw [putEntry]
    by_cases hkey : key = name
    · rw [if_pos hkey]
      exact lookup_cons_self
    · rw [if_neg hkey]
      by_cases hlt : name < key
      · rw [if_pos hlt]
        exact lookup_cons_self
      · rw [if_neg hlt, lookup_cons_of_ne (Ne.symm hkey), ih]

theorem lookup_putEntry_of_ne {name other : Text} (h : other ≠ name) (node : FileTree)
    (entries : List (Text × FileTree)) :
    (putEntry name node entries).lookup other = entries.lookup other := by
  induction entries with
  | nil => exact lookup_cons_of_ne h node []
  | cons entry entries ih =>
    obtain ⟨key, child⟩ := entry
    rw [putEntry]
    by_cases hkey : key = name
    · rw [if_pos hkey, lookup_cons_of_ne h, lookup_cons_of_ne (hkey ▸ h)]
    · rw [if_neg hkey]
      by_cases hlt : name < key
      · rw [if_pos hlt, lookup_cons_of_ne h]
      · rw [if_neg hlt, lookup_cons, lookup_cons, ih]

theorem putEntry_putEntry (name : Text) (first second : FileTree)
    (entries : List (Text × FileTree)) :
    putEntry name second (putEntry name first entries) = putEntry name second entries := by
  induction entries with
  | nil => exact if_pos rfl
  | cons entry entries ih =>
    obtain ⟨key, child⟩ := entry
    rw [putEntry, putEntry]
    by_cases hkey : key = name
    · rw [if_pos hkey, if_pos hkey, putEntry, if_pos rfl]
    · rw [if_neg hkey, if_neg hkey]
      by_cases hlt : name < key
      · rw [if_pos hlt, if_pos hlt, putEntry, if_pos rfl]
      · rw [if_neg hlt, if_neg hlt, putEntry, if_neg hkey, if_neg hlt, ih]

theorem put_put (tree : FileTree) (place : List Text) (first second : FileTree) :
    (tree.put place first).put place second = tree.put place second := by
  induction place generalizing tree with
  | nil => rw [put, put]
  | cons name rest ih =>
    cases tree with
    | directory entries =>
      rw [put, put, put, lookup_putEntry_self, getD_some, ih, putEntry_putEntry]
    | file content => rfl
    | locked problem => rfl
    | link target => rfl

/-- A place where a file may be put: a file, or a free name in a directory. -/
inductive IsSlot : FileTree → List Text → Prop where
  | file (content : Bytes) : IsSlot (.file content) []
  | free {entries : List (Text × FileTree)} {name : Text} (free : entries.lookup name = none) :
      IsSlot (.directory entries) [name]
  | inside {entries : List (Text × FileTree)} {name : Text} {child : FileTree} {rest : List Text}
      (entry : entries.lookup name = some child) (more : IsSlot child rest) :
      IsSlot (.directory entries) (name :: rest)

theorem IsSlot.of_at? {child : FileTree} {rest : List Text} (h : tree.at? place = some child)
    (hslot : IsSlot child rest) : IsSlot tree (place ++ rest) := by
  induction place generalizing tree with
  | nil =>
    obtain rfl := some.inj ((at?_nil tree).symm.trans h)
    exact hslot
  | cons name more ih =>
    cases tree with
    | directory entries =>
      obtain ⟨next, hentry, hnext⟩ := bind_eq_some_iff.mp h
      exact .inside hentry (ih hnext)
    | file content => cases h
    | locked problem => cases h
    | link target => cases h

theorem isSlot_of_at?_file {content : Bytes} (h : tree.at? place = some (.file content)) :
    IsSlot tree place :=
  append_nil place ▸ (IsSlot.file content).of_at? h

theorem isSlot_of_free (h : tree.at? place = some (.directory entries))
    (hfree : entries.lookup name = none) : IsSlot tree (place ++ [name]) :=
  (IsSlot.free hfree).of_at? h

/-- Putting a node with nothing below it in a slot changes the view there and nowhere else. -/
theorem view_put (hslot : IsSlot tree place) (hleaf : node.entries = []) :
    (tree.put place node).view = Function.update tree.view place (some node.label) := by
  have hnode : ∀ rest, node.view rest = if rest = [] then some node.label else none := by
    intro rest
    cases rest with
    | nil => cases node <;> rfl
    | cons name rest =>
      cases node with
      | directory entries =>
        obtain rfl : entries = [] := hleaf
        rfl
      | file content => rfl
      | locked problem => rfl
      | link target => rfl
  induction hslot with
  | file content =>
    funext rest
    rw [put, hnode, Function.update_apply]
    cases rest <;> rfl
  | @free entries name free =>
    funext rest
    rw [put, put, Function.update_apply]
    cases rest with
    | nil => rfl
    | cons other rest =>
      rw [view_cons, view_cons]
      by_cases hname : other = name
      · subst hname
        rw [lookup_putEntry_self, bind_some, hnode, free, bind_none]
        simp
      · rw [lookup_putEntry_of_ne hname, if_neg (by simp [hname])]
  | @inside entries name child rest entry more ih =>
    funext path
    rw [put, entry, getD_some, Function.update_apply]
    cases path with
    | nil => rfl
    | cons other path =>
      rw [view_cons, view_cons]
      by_cases hname : other = name
      · subst hname
        rw [lookup_putEntry_self, bind_some, ih, Function.update_apply, entry,
          bind_some]
        simp
      · rw [lookup_putEntry_of_ne hname, if_neg (by simp [hname])]

end SourceAtlas.FileTree
