import SourceAtlas.Proofs.FileTree.Ordered
import SourceAtlas.Proofs.Text.Order
import SourceAtlas.Proofs.Text.Split
import SourceAtlas.Workspace.Sources

/-!
# What a walk discovers

A walk decides directory by directory what to enter. The file at a place, or the link that leads to no
directory, is discovered when no directory on the way to it is excluded or ignored and it is not
ignored itself, and it is discovered once. The sources of a workspace are the discovered files with a
wanted extension, in the order of their paths.
-/

namespace SourceAtlas

open List Option

open FileTree

variable {top tree node : FileTree} {rules : List IgnoreRule} {entries : List (Text × FileTree)}
  {base above place names : List Text} {name path directory : Text}

/-! ## Relative paths -/

/-- A text that can be the name of an entry. -/
structure IsEntryName (name : Text) : Prop where
  nonempty : name ≠ []
  notHere : name ≠ ['.']
  notUp : name ≠ "..".toList
  noSlash : '/' ∉ name

instance (name : Text) : Decidable (IsEntryName name) :=
  decidable_of_iff (name ≠ [] ∧ name ≠ ['.'] ∧ name ≠ "..".toList ∧ '/' ∉ name)
    ⟨fun h => ⟨h.1, h.2.1, h.2.2.1, h.2.2.2⟩, fun h => ⟨h.1, h.2, h.3, h.4⟩⟩

theorem splitOn_joinWith (hne : names ≠ []) (h : ∀ name ∈ names, IsEntryName name) :
    splitOn '/' (joinWith ['/'] names) = names :=
  splitOn_joinWith_of_notMem hne fun name hname => (h name hname).noSlash

theorem joinWith_concat (hne : above ≠ []) (name : Text) :
    joinWith ['/'] (above ++ [name]) = joinWith ['/'] above ++ '/' :: name := by
  rw [joinWith_append _ hne (cons_ne_nil name []), append_assoc]
  rfl

theorem joinWith_ne_nil (hne : above ≠ []) (h : ∀ name ∈ above, IsEntryName name) :
    joinWith ['/'] above ≠ [] := by
  intro hnil
  have hsplit := splitOn_joinWith hne h
  rw [hnil] at hsplit
  exact (h [] (hsplit ▸ mem_singleton_self _)).nonempty rfl

theorem entryPath_joinWith (h : ∀ name ∈ above, IsEntryName name) (name : Text) :
    entryPath (joinWith ['/'] above) name = joinWith ['/'] (above ++ [name]) := by
  unfold entryPath
  by_cases hne : above = []
  · subst hne
    rfl
  · rw [if_neg, joinWith_concat hne]
    rw [List.isEmpty_iff]
    exact joinWith_ne_nil hne h

def FileTree.Named (tree : FileTree) : Prop :=
  tree.EachDirectory fun entries => ∀ entry ∈ entries, IsEntryName entry.1

theorem FileTree.Named.of_at? (h : tree.Named) (hnode : tree.at? place = some node) : node.Named :=
  EachDirectory.of_at? h hnode

theorem FileTree.Named.isEntryName (h : tree.Named) (hnode : tree.at? place = some node) :
    ∀ name ∈ place, IsEntryName name := by
  induction place generalizing tree with
  | nil => exact fun name hname => absurd hname not_mem_nil
  | cons name rest ih =>
    cases tree with
    | file content => cases hnode
    | locked problem => cases hnode
    | link target => cases hnode
    | directory entries =>
      obtain ⟨child, hentry, hchild⟩ := bind_eq_some_iff.mp hnode
      rw [forall_mem_cons]
      exact ⟨h [] entries rfl _ (mem_of_lookup hentry), ih (EachDirectory.of_lookup h hentry) hchild⟩

theorem FileTree.Named.put (h : tree.Named) (hplace : ∀ name ∈ place, IsEntryName name)
    (hnode : node.Named) : (tree.put place node).Named := by
  refine EachDirectory.put h hnode (fun entry hentry => absurd hentry not_mem_nil) ?_
  intro name hname child entries hentries entry hentry
  obtain hsame | hold := mem_names_putEntry (mem_map_of_mem hentry)
  · rw [hsame]
    exact hplace name hname
  · obtain ⟨old, hmem, hsame⟩ := mem_map.mp hold
    rw [← hsame]
    exact hentries old hmem

theorem named_empty : empty.Named :=
  eachDirectory_empty fun _ hentry => absurd hentry not_mem_nil

/-! ## One directory -/

section Entries

variable (top : FileTree) (rules : List IgnoreRule) (base : List Text) (directory : Text)

def isGiven (entry : Text × FileTree) : Bool :=
  !top.countsAsDirectory (base ++ [entry.1]) entry.2 &&
    !isIgnored rules (entryPath directory entry.1) false

def isEntered (entry : Text × FileTree) : Bool :=
  top.countsAsDirectory (base ++ [entry.1]) entry.2 && !excludedDirectories.contains entry.1 &&
    !isIgnored rules (entryPath directory entry.1) true

theorem fst_walkEntries (entries : List (Text × FileTree)) :
    (walkEntries top rules base directory entries).1 =
      (entries.filter (isGiven top rules base directory)).map (entryPath directory ·.1) := by
  induction entries with
  | nil => rfl
  | cons entry entries ih =>
    obtain ⟨name, node⟩ := entry
    rw [walkEntries, filter_cons]
    cases hdirectory : top.countsAsDirectory (base ++ [name]) node with
    | true =>
      simp only [isGiven, hdirectory, if_true]
      split <;> exact ih
    | false =>
      cases hignored : isIgnored rules (entryPath directory name) false <;>
        simp [isGiven, hdirectory, hignored, ih]

theorem snd_walkEntries (entries : List (Text × FileTree)) :
    (walkEntries top rules base directory entries).2 =
      (entries.filter (isEntered top rules base directory)).flatMap fun entry =>
        top.walk rules (base ++ [entry.1]) (entryPath directory entry.1) entry.2 := by
  induction entries with
  | nil => rfl
  | cons entry entries ih =>
    obtain ⟨name, node⟩ := entry
    rw [walkEntries, filter_cons]
    cases hdirectory : top.countsAsDirectory (base ++ [name]) node with
    | true =>
      by_cases hexcluded : name ∈ excludedDirectories <;>
        cases hignored : isIgnored rules (entryPath directory name) true <;>
          simp [isEntered, hdirectory, hexcluded, hignored, ih]
    | false =>
      cases hignored : isIgnored rules (entryPath directory name) false <;>
        simp [isEntered, hdirectory, hignored, ih]

/-- A walk of a directory gives files of its own and what the walks of the directories in it give. -/
theorem walk_directory (entries : List (Text × FileTree)) :
    top.walk rules base directory (.directory entries) =
      (entries.filter (isGiven top rules base directory)).map (entryPath directory ·.1) ++
        (entries.filter (isEntered top rules base directory)).flatMap fun entry =>
          top.walk rules (base ++ [entry.1]) (entryPath directory entry.1) entry.2 := by
  rw [FileTree.walk, ← fst_walkEntries, ← snd_walkEntries]

end Entries

/-! ## Discovered files -/

/-- What makes a walk of the directory at `base`, with the path `above`, give the node at a place below
it. -/
structure IsDiscovered (top : FileTree) (rules : List IgnoreRule) (base above : List Text)
    (tree : FileTree) (place : List Text) : Prop where
  /-- At the place is a file or a link that leads to no directory. -/
  file : ∃ node, tree.at? place = some node ∧ top.countsAsDirectory (base ++ place) node = false
  /-- No directory on the way is excluded by its name or ignored. -/
  entered : ∀ first name last rest, place = first ++ name :: last :: rest →
    name ∉ excludedDirectories ∧
      isIgnored rules (joinWith ['/'] (above ++ first ++ [name])) true = false
  /-- The file itself is not ignored. -/
  kept : isIgnored rules (joinWith ['/'] (above ++ place)) false = false

theorem isDiscovered_singleton_iff :
    IsDiscovered top rules base above (.directory entries) [name] ↔
      ∃ node, entries.lookup name = some node ∧
        top.countsAsDirectory (base ++ [name]) node = false ∧
        isIgnored rules (joinWith ['/'] (above ++ [name])) false = false := by
  have hentry := at?_singleton entries name
  constructor
  · rintro ⟨⟨node, hnode, hfile⟩, -, hkept⟩
    exact ⟨node, hentry.symm.trans hnode, hfile, hkept⟩
  · rintro ⟨node, hnode, hfile, hkept⟩
    refine ⟨⟨node, hentry.trans hnode, hfile⟩, ?_, hkept⟩
    intro first name last rest hplace
    have hlength := congrArg length hplace
    simp at hlength
    omega

theorem isDiscovered_cons_iff {last : Text} {rest : List Text} :
    IsDiscovered top rules base above (.directory entries) (name :: last :: rest) ↔
      ∃ node, entries.lookup name = some node ∧ name ∉ excludedDirectories ∧
        isIgnored rules (joinWith ['/'] (above ++ [name])) true = false ∧
        IsDiscovered top rules (base ++ [name]) (above ++ [name]) node (last :: rest) := by
  have happend : ∀ front tail : List Text, front ++ name :: tail = front ++ [name] ++ tail := by simp
  constructor
  · rintro ⟨⟨file, hat, hfile⟩, hentered, hkept⟩
    obtain ⟨node, hnode, hbelow⟩ := bind_eq_some_iff.mp hat
    obtain ⟨hname, hignored⟩ := hentered [] name last rest rfl
    rw [append_nil] at hignored
    refine ⟨node, hnode, hname, hignored, ⟨file, hbelow, happend base _ ▸ hfile⟩, ?_,
      happend above _ ▸ hkept⟩
    intro first other next rest hplace
    have hmore := hentered (name :: first) other next rest (by rw [hplace]; rfl)
    rwa [happend] at hmore
  · rintro ⟨node, hnode, hname, hignored, ⟨file, hbelow, hfile⟩, hentered, hkept⟩
    refine ⟨⟨file, ?_, (happend base _).symm ▸ hfile⟩, ?_, (happend above _).symm ▸ hkept⟩
    · rw [at?, hnode]
      exact hbelow
    · intro first other next more hplace
      cases first with
      | nil =>
        obtain ⟨rfl, -⟩ := cons.inj hplace
        rw [append_nil]
        exact ⟨hname, hignored⟩
      | cons head first =>
        obtain ⟨rfl, hrest⟩ := cons.inj hplace
        rw [happend]
        exact hentered first other next more hrest

theorem mem_given_iff (hordered : (FileTree.directory entries).Ordered)
    (habove : ∀ name ∈ above, IsEntryName name) :
    path ∈ (entries.filter (isGiven top rules base (joinWith ['/'] above))).map
        (entryPath (joinWith ['/'] above) ·.1) ↔
      ∃ name, path = joinWith ['/'] (above ++ [name]) ∧
        IsDiscovered top rules base above (.directory entries) [name] := by
  simp only [List.mem_map, mem_filter, isDiscovered_singleton_iff, isGiven, Bool.and_eq_true,
    Bool.not_eq_true', entryPath_joinWith habove]
  constructor
  · rintro ⟨⟨name, node⟩, ⟨hmem, hfile, hkept⟩, rfl⟩
    exact ⟨name, rfl, node, hordered.lookup_of_mem hmem, hfile, hkept⟩
  · rintro ⟨name, rfl, node, hentry, hfile, hkept⟩
    exact ⟨(name, node), ⟨mem_of_lookup hentry, hfile, hkept⟩, rfl⟩

theorem IsDiscovered.isDirectory_of_cons
    (h : IsDiscovered top rules base above tree (name :: names)) :
    tree.isDirectory = true := by
  obtain ⟨node, hnode, -⟩ := h.file
  cases tree with
  | directory entries => rfl
  | file content => cases hnode
  | locked problem => cases hnode
  | link target => cases hnode

theorem countsAsDirectory_of_isDirectory (h : node.isDirectory = true) :
    top.countsAsDirectory place node = true := by
  cases node with
  | directory entries => rfl
  | file content => cases h
  | locked problem => cases h
  | link target => cases h

theorem IsDiscovered.exists_cons (h : IsDiscovered top rules base above tree place)
    (hdirectory : tree.isDirectory = true) : ∃ name rest, place = name :: rest := by
  cases place with
  | nil =>
    obtain ⟨node, hnode, hfile⟩ := h.file
    obtain rfl := some.inj ((at?_nil tree).symm.trans hnode)
    cases (countsAsDirectory_of_isDirectory hdirectory).symm.trans hfile
  | cons name rest => exact ⟨name, rest, rfl⟩

section Directory

variable (hordered : (FileTree.directory entries).Ordered)
  (hnamed : (FileTree.directory entries).Named) (hmem : (name, node) ∈ entries)

include hordered hmem in
theorem at?_of_mem : (FileTree.directory entries).at? [name] = some node :=
  (at?_singleton entries name).trans (hordered.lookup_of_mem hmem)

include hnamed hmem in
theorem isEntryName_of_mem (habove : ∀ name ∈ above, IsEntryName name) :
    ∀ part ∈ above ++ [name], IsEntryName part := by
  intro part hpart
  obtain hpart | hpart := mem_append.mp hpart
  · exact habove part hpart
  · obtain rfl := mem_singleton.mp hpart
    exact hnamed [] entries rfl _ hmem

end Directory

theorem isDirectory_of_mem_walk (h : path ∈ top.walk rules base directory node) :
    node.isDirectory = true := by
  cases node with
  | directory entries => rfl
  | file content => cases h
  | locked problem => cases h
  | link target => cases h

theorem mem_walk_iff (hordered : tree.Ordered) (hnamed : tree.Named)
    (habove : ∀ name ∈ above, IsEntryName name) (hdirectory : tree.isDirectory = true) :
    path ∈ top.walk rules base (joinWith ['/'] above) tree ↔ ∃ place,
      path = joinWith ['/'] (above ++ place) ∧ IsDiscovered top rules base above tree place := by
  induction tree using inductionOn generalizing base above with
  | file content => cases hdirectory
  | locked problem => cases hdirectory
  | link target => cases hdirectory
  | directory entries ih =>
    -- below an entry the induction hypothesis holds with the name of the entry behind `above`
    have hbelow : ∀ {name node}, (name, node) ∈ entries → node.isDirectory = true →
        (path ∈ top.walk rules (base ++ [name]) (joinWith ['/'] (above ++ [name])) node ↔
          ∃ rest, path = joinWith ['/'] (above ++ [name] ++ rest) ∧
            IsDiscovered top rules (base ++ [name]) (above ++ [name]) node rest) := by
      intro name node hmem hnode
      have hat := at?_of_mem hordered hmem
      exact ih _ hmem (hordered.of_at? hat) (hnamed.of_at? hat)
        (isEntryName_of_mem hnamed hmem habove) hnode
    rw [walk_directory, mem_append, mem_given_iff hordered habove]
    simp only [mem_flatMap, mem_filter, isEntered, Bool.and_eq_true,
      Bool.not_eq_true', entryPath_joinWith habove]
    constructor
    · rintro (⟨name, hpath, hgiven⟩ | ⟨⟨name, node⟩, ⟨hmem, ⟨-, hname⟩, hignored⟩, hpath⟩)
      · exact ⟨[name], hpath, hgiven⟩
      · have hnode := isDirectory_of_mem_walk hpath
        obtain ⟨place, rfl, hplace⟩ := (hbelow hmem hnode).mp hpath
        obtain ⟨last, rest, rfl⟩ := hplace.exists_cons hnode
        refine ⟨name :: last :: rest, by simp, isDiscovered_cons_iff.mpr ?_⟩
        exact ⟨node, hordered.lookup_of_mem hmem, by simpa using hname, hignored, hplace⟩
    · rintro ⟨place, rfl, hplace⟩
      obtain ⟨name, rest, rfl⟩ := hplace.exists_cons rfl
      cases rest with
      | nil => exact Or.inl ⟨name, rfl, hplace⟩
      | cons last rest =>
        obtain ⟨node, hentry, hname, hignored, hrest⟩ := isDiscovered_cons_iff.mp hplace
        have hmem := mem_of_lookup hentry
        have hnode := hrest.isDirectory_of_cons
        refine Or.inr ⟨(name, node), ⟨hmem, ⟨countsAsDirectory_of_isDirectory hnode,
          by simpa using hname⟩, hignored⟩, ?_⟩
        exact (hbelow hmem hnode).mpr ⟨last :: rest, by simp, hrest⟩

theorem exists_of_mem_walk (hordered : tree.Ordered) (hnamed : tree.Named)
    (habove : ∀ name ∈ above, IsEntryName name)
    (h : path ∈ top.walk rules base (joinWith ['/'] above) tree) :
    ∃ name rest, splitOn '/' path = above ++ name :: rest := by
  have hdirectory := isDirectory_of_mem_walk h
  obtain ⟨place, rfl, hplace⟩ := (mem_walk_iff hordered hnamed habove hdirectory).mp h
  obtain ⟨name, rest, rfl⟩ := hplace.exists_cons hdirectory
  obtain ⟨node, hnode, -⟩ := hplace.file
  refine ⟨name, rest, splitOn_joinWith (by simp) ?_⟩
  intro part hpart
  obtain hpart | hpart := mem_append.mp hpart
  · exact habove part hpart
  · exact hnamed.isEntryName hnode part hpart

theorem nodup_walk (hordered : tree.Ordered) (hnamed : tree.Named)
    (habove : ∀ name ∈ above, IsEntryName name) :
    (top.walk rules base (joinWith ['/'] above) tree).Nodup := by
  induction tree using inductionOn generalizing base above with
  | file content => exact nodup_nil
  | locked problem => exact nodup_nil
  | link target => exact nodup_nil
  | directory entries ih =>
    have hnames : entries.Pairwise fun first second => first.1 ≠ second.1 :=
      pairwise_map.mp (nodup_of_increasing hordered.increasing)
    have hgiven : ∀ {entry}, entry ∈ entries →
        splitOn '/' (joinWith ['/'] (above ++ [entry.1])) = above ++ [entry.1] := fun hmem =>
      splitOn_joinWith (by simp) (isEntryName_of_mem hnamed hmem habove)
    have hbelow : ∀ {entry}, entry ∈ entries →
        ∀ path ∈ top.walk rules (base ++ [entry.1]) (joinWith ['/'] (above ++ [entry.1])) entry.2,
          ∃ name rest, splitOn '/' path = above ++ [entry.1] ++ name :: rest := by
      intro entry hmem path hpath
      have hat := at?_of_mem hordered hmem
      exact exists_of_mem_walk (hordered.of_at? hat) (hnamed.of_at? hat)
        (isEntryName_of_mem hnamed hmem habove) hpath
    rw [walk_directory]
    simp only [entryPath_joinWith habove]
    refine nodup_append.mpr ⟨?_, pairwise_flatMap.mpr ⟨?_, ?_⟩, ?_⟩
    · -- two entries have two names
      refine pairwise_map.mpr ((hnames.filter _).imp_of_mem ?_)
      intro first second hfirst hsecond hne hpath
      have hsplit := congrArg (splitOn '/') hpath
      rw [hgiven (mem_of_mem_filter hfirst), hgiven (mem_of_mem_filter hsecond)] at hsplit
      exact hne (singleton_inj.mp (append_cancel_left hsplit))
    · intro entry hentry
      have hmem := mem_of_mem_filter hentry
      have hat := at?_of_mem hordered hmem
      exact ih entry hmem (hordered.of_at? hat) (hnamed.of_at? hat)
        (isEntryName_of_mem hnamed hmem habove)
    · -- what is below two directories differs where their names stand
      refine (hnames.filter _).imp_of_mem ?_
      rintro first second hfirst hsecond hne path hpath _ hother rfl
      obtain ⟨name, rest, hsplit⟩ := hbelow (mem_of_mem_filter hfirst) path hpath
      obtain ⟨last, more, hsame⟩ := hbelow (mem_of_mem_filter hsecond) path hother
      rw [hsplit, append_assoc, append_assoc] at hsame
      exact hne (cons.inj (append_cancel_left hsame)).1
    · -- what is below a directory has one name more than a file beside it
      rintro path hpath _ hother rfl
      obtain ⟨first, hfirst, rfl⟩ := mem_map.mp hpath
      obtain ⟨second, hsecond, hother⟩ := mem_flatMap.mp hother
      obtain ⟨name, rest, hsplit⟩ := hbelow (mem_of_mem_filter hsecond) _ hother
      rw [hgiven (mem_of_mem_filter hfirst), append_assoc] at hsplit
      exact absurd (append_cancel_left hsplit) (by simp)

/-! ## Workspaces -/

namespace Workspace

variable {here root : Path} {given : Text}

theorem resolveRoot_eq_ok_iff :
    resolveRoot tree here given = .ok root ↔
      root = tree.resolve here (.ofText given) ∧ tree.isDirectoryAt here root = true := by
  unfold resolveRoot pathExists isDirectoryAt
  dsimp only
  constructor
  · intro h
    split at h
    · cases h
    split at h
    · cases h
    · rename_i hdirectory
      obtain rfl := Except.ok.inj h
      rw [Bool.not_eq_true', Bool.not_eq_false] at hdirectory
      exact ⟨rfl, hdirectory⟩
  · rintro ⟨rfl, hdirectory⟩
    obtain ⟨node, hnode, hnodeDirectory⟩ := (Option.any_eq_true _ _).mp hdirectory
    rw [hnode]
    simp [hnodeDirectory]

theorem exists_of_resolveRoot (h : resolveRoot tree here given = .ok root) :
    root.absolute = true ∧ ∃ place entries,
      tree.spot here root = .ok (.node place (.directory entries)) := by
  obtain ⟨rfl, hdirectory⟩ := resolveRoot_eq_ok_iff.mp h
  obtain ⟨place, entries, hway⟩ := isDirectoryAt_iff.mp hdirectory
  exact ⟨rfl, place, entries, locate_of_leads hway⟩

theorem files_of_spot {entries : List (Text × FileTree)} (habsolute : root.absolute = true)
    (h : tree.spot here root = .ok (.node place (.directory entries))) (rules : List IgnoreRule) :
    files tree root rules = tree.walk rules place [] (.directory entries) := by
  unfold files
  rw [spot_of_absolute tree root here habsolute, h]

section Files

variable (hordered : tree.Ordered) (hnamed : tree.Named) (habsolute : root.absolute = true)
  (hspot : tree.spot here root = .ok (.node place (.directory entries)))

include hordered hnamed habsolute hspot

theorem mem_files_iff :
    path ∈ files tree root rules ↔
      ∃ names, path = joinWith ['/'] names ∧
        IsDiscovered tree rules place [] (.directory entries) names := by
  have hat := (leads_of_locate hspot).at?_eq
  have hnames : ∀ name ∈ ([] : List Text), IsEntryName name := nofun
  rw [files_of_spot habsolute hspot]
  exact mem_walk_iff (hordered.of_at? hat) (hnamed.of_at? hat) hnames rfl

theorem nodup_files : (files tree root rules).Nodup := by
  have hat := (leads_of_locate hspot).at?_eq
  have hnames : ∀ name ∈ ([] : List Text), IsEntryName name := nofun
  rw [files_of_spot habsolute hspot]
  exact nodup_walk (hordered.of_at? hat) (hnamed.of_at? hat) hnames

end Files

theorem path_readSource (tree : FileTree) (root : Path) (path : Text) :
    (readSource tree root path).source.path = path := by
  unfold readSource
  dsimp only
  split <;> rfl

/-- The files with a wanted extension, as they are read. -/
def wantedReadings (tree : FileTree) (root : Path) (extensions : List Text)
    (rules : List IgnoreRule) : List Reading :=
  ((files tree root rules).filter fun path =>
    (extensions.map lower).contains (lower (extensionOf path))).map (readSource tree root)

theorem readings_eq (tree : FileTree) (root : Path) (extensions : List Text) :
    readings tree root extensions =
      (ignoreRules tree root).map (wantedReadings tree root extensions) :=
  rfl

theorem mem_wantedReadings_iff {extensions : List Text} {source : Source} :
    source ∈ sorted ((wantedReadings tree root extensions rules).map (·.source)) ↔
      ∃ path ∈ files tree root rules, lower (extensionOf path) ∈ extensions.map lower ∧
        source = (readSource tree root path).source := by
  unfold sorted wantedReadings
  rw [mem_mergeSort]
  simp only [List.mem_map (b := source), List.mem_map (f := readSource tree root), mem_filter,
    contains_iff_mem]
  constructor
  · rintro ⟨-, ⟨path, ⟨hfile, hextension⟩, rfl⟩, rfl⟩
    exact ⟨path, hfile, hextension, rfl⟩
  · rintro ⟨path, hfile, hextension, rfl⟩
    exact ⟨_, ⟨path, ⟨hfile, hextension⟩, rfl⟩, rfl⟩

theorem increasing_wantedReadings (h : (files tree root rules).Nodup) (extensions : List Text) :
    ((sorted ((wantedReadings tree root extensions rules).map (·.source))).map (·.path)).Pairwise
      (· < ·) := by
  apply increasing_mergeSort_key
  have hpaths : ((wantedReadings tree root extensions rules).map (·.source)).map (·.path) =
      (files tree root rules).filter fun path =>
        (extensions.map lower).contains (lower (extensionOf path)) := by
    unfold wantedReadings
    rw [List.map_map, List.map_map]
    exact (map_congr_left fun path _ => path_readSource tree root path).trans (map_id _)
  rw [hpaths]
  exact h.filter _

/-- The walk of a workspace gives the path of a file exactly if no directory on the way to it is
excluded or ignored and it is not ignored itself, and gives it once. The sources are those of them
with a wanted extension, in the order of their paths, unless the ignore file cannot be read. -/
theorem discovers_exactly (hordered : tree.Ordered) (hnamed : tree.Named)
    (hroot : resolveRoot tree here given = .ok root) :
    ∃ place entries, tree.spot here root = .ok (.node place (.directory entries)) ∧
      (∀ rules,
        (∀ path, path ∈ files tree root rules ↔ ∃ names, path = joinWith ['/'] names ∧
          IsDiscovered tree rules place [] (.directory entries) names) ∧
        (files tree root rules).Nodup) ∧
      ∀ extensions,
        (∀ fault, ignoreRules tree root = .error fault →
          sources tree root extensions = .error fault) ∧
        ∀ rules, ignoreRules tree root = .ok rules →
          ∃ found, sources tree root extensions = .ok found ∧
            (∀ source, source ∈ found ↔ ∃ path ∈ files tree root rules,
              lower (extensionOf path) ∈ extensions.map lower ∧
              source = (readSource tree root path).source) ∧
            (found.map (·.path)).Pairwise (· < ·) := by
  obtain ⟨habsolute, place, entries, hspot⟩ := exists_of_resolveRoot hroot
  have hnodup : ∀ {rules}, (files tree root rules).Nodup :=
    nodup_files hordered hnamed habsolute hspot
  refine ⟨place, entries, hspot, fun rules => ⟨fun path => ?_, hnodup⟩, fun extensions => ?_⟩
  · exact mem_files_iff hordered hnamed habsolute hspot
  · refine ⟨fun fault hfault => ?_, fun rules hrules => ?_⟩
    · rw [sources, readings_eq, hfault]
      rfl
    · refine ⟨_, ?_, fun source => mem_wantedReadings_iff, increasing_wantedReadings hnodup extensions⟩
      rw [sources, readings_eq, hrules]
      rfl

/-- A workspace with sources in a directory and below two more, one of them excluded by its name. -/
def shelf : FileTree :=
  (((empty.put ["bin".toList, "C.cs".toList] (.file [])).put ["gen".toList, "keep.cs".toList]
    (.file [])).put ["src".toList, "B.cs".toList] (.file [])).put ["A.cs".toList] (.file [])

def shelfRules : List IgnoreRule :=
  IgnoreRule.parseFile "gen/\n!keep.cs".toList

/-- The walk of the workspace misses the file that the last rule keeps, since the directory that holds
it is not entered. -/
theorem discovers_exactly_shelf :
    shelf.Ordered ∧ shelf.Named ∧ resolveRoot shelf ⟨true, []⟩ ".".toList = .ok ⟨true, []⟩ ∧
      isIgnored shelfRules "gen/keep.cs".toList false = false ∧
      "gen/keep.cs".toList ∉ files shelf ⟨true, []⟩ shelfRules ∧
      "src/B.cs".toList ∈ files shelf ⟨true, []⟩ shelfRules := by
  have hordered : shelf.Ordered :=
    (((ordered_empty.put _ (ordered_file [])).put _ (ordered_file [])).put _
      (ordered_file [])).put _ (ordered_file [])
  have hfile : (file []).Named := eachDirectory_file []
  have hnamed : shelf.Named :=
    (((named_empty.put (by decide) hfile).put (by decide) hfile).put (by decide) hfile).put
      (by decide) hfile
  have hparts : ((⟨true, []⟩ : Path).join (.ofText ".".toList)).parts = [] := by decide
  have hspot : shelf.spot ⟨true, []⟩ ⟨true, []⟩ = .ok (.node [] shelf) :=
    locate_of_leads (.stop rfl)
  have hroot : resolveRoot shelf ⟨true, []⟩ ".".toList = .ok ⟨true, []⟩ := by
    refine resolveRoot_eq_ok_iff.mpr ⟨?_, isDirectoryAt_iff.mpr ⟨[], shelf.entries, .stop rfl⟩⟩
    unfold resolve
    rw [hparts, resolveNames]
  obtain ⟨place, entries, hplace, hfiles, -⟩ := discovers_exactly hordered hnamed hroot
  obtain ⟨-, hentries⟩ := Spot.node.inj (Except.ok.inj (hspot.symm.trans hplace))
  have hignored : isIgnored shelfRules "gen".toList true = true := by decide
  refine ⟨hordered, hnamed, hroot, by decide, ?_, ?_⟩
  · rw [(hfiles shelfRules).1]
    rintro ⟨names, hpath, hfound⟩
    have hne : names ≠ [] := by
      rintro rfl
      cases hpath
    obtain ⟨node, hnode, -⟩ := hfound.file
    have hat := (leads_of_locate hplace).at?_eq
    have hsplit := splitOn_joinWith hne ((hnamed.of_at? hat).isEntryName hnode)
    rw [← hpath] at hsplit
    obtain rfl : ["gen".toList, "keep.cs".toList] = names := hsplit
    have hgen := (hfound.entered [] "gen".toList "keep.cs".toList [] rfl).2
    cases hignored.symm.trans hgen
  · rw [(hfiles shelfRules).1, ← hentries]
    exact ⟨["src".toList, "B.cs".toList], rfl, isDiscovered_cons_iff.mpr ⟨_, rfl, by decide,
      by decide, isDiscovered_singleton_iff.mpr ⟨_, rfl, rfl, by decide⟩⟩⟩

end Workspace

end SourceAtlas
