import SourceAtlas.Proofs.FileTree.Avoid
import SourceAtlas.Proofs.Workspace.Walk

/-!
# Changes that a workspace does not show

Nothing in the output directory of a workspace is discovered. Unless a link leads there, a change in
that directory shows neither in the ignore rules nor in the sources.
-/

namespace SourceAtlas.Workspace

open List

open FileTree

variable {root : Path} {before after : FileTree} {names : List Text} {name path : Text}
  {entries : List (Text × FileTree)}

def outputPlace (root : Path) : List Text :=
  root.parts ++ [overviewDirectory]

/-- Two trees that differ in the output directory of a workspace. -/
structure ChangedOutput (root : Path) (before after : FileTree) : Prop where
  absolute : root.absolute = true
  up_notMem : "..".toList ∉ root.parts
  workspace : before.view root.parts = some .directory
  output : after.view (outputPlace root) = some .directory
  within : Within (outputPlace root) before after
  ordered : before.Ordered
  ordered_after : after.Ordered

theorem outputPlace_isPrefix_iff :
    outputPlace root <+: root.parts ++ names ↔ ∃ rest, names = overviewDirectory :: rest := by
  unfold outputPlace
  rw [prefix_append_right_inj]
  constructor
  · rintro ⟨rest, rfl⟩
    exact ⟨rest, rfl⟩
  · rintro ⟨rest, rfl⟩
    exact ⟨rest, rfl⟩

/-! ## Discovered files -/

theorem lookup_filter_ne (key name : Text) (entries : List (Text × FileTree)) :
    (entries.filter (·.1 ≠ key)).lookup name = if name = key then none else entries.lookup name := by
  induction entries with
  | nil => exact (ite_self none).symm
  | cons entry entries ih =>
    obtain ⟨other, node⟩ := entry
    by_cases hother : other = key
    · rw [filter_cons_of_neg (by simpa using hother), ih]
      by_cases hname : name = key
      · rw [if_pos hname, if_pos hname]
      · rw [if_neg hname, if_neg hname, lookup_cons_of_ne (hother ▸ hname)]
    · rw [filter_cons_of_pos (by simpa using hother), lookup_cons, lookup_cons, ih]
      by_cases hname : name = key
      · rw [if_pos hname, if_pos hname, beq_eq_false_iff_ne.mpr (hname ▸ Ne.symm hother)]
      · rw [if_neg hname, if_neg hname]

/-- A walk does not look into a directory under the name of output directories. -/
theorem walk_filter (tree : FileTree) (rules : List IgnoreRule)
    (base : List Text) (directory : Text)
    (h : ∀ entry ∈ entries, entry.1 = overviewDirectory → entry.2.isDirectory = true) :
    tree.walk rules base directory (.directory (entries.filter (·.1 ≠ overviewDirectory))) =
      tree.walk rules base directory (.directory entries) := by
  have hexcluded : overviewDirectory ∈ excludedDirectories :=
    mem_append_right _ (mem_singleton_self _)
  have hgiven : ∀ entry ∈ entries,
      (isGiven tree rules base directory entry && decide (entry.1 ≠ overviewDirectory)) =
        isGiven tree rules base directory entry := by
    intro entry hentry
    by_cases hname : entry.1 = overviewDirectory
    · simp [isGiven, countsAsDirectory_of_isDirectory (h entry hentry hname)]
    · simp [hname]
  have hentered : ∀ entry ∈ entries,
      (isEntered tree rules base directory entry && decide (entry.1 ≠ overviewDirectory)) =
        isEntered tree rules base directory entry := by
    intro entry hentry
    by_cases hname : entry.1 = overviewDirectory
    · simp [isEntered, hname, hexcluded]
    · simp [hname]
  rw [walk_directory, walk_directory, filter_filter, filter_filter,
    filter_congr hgiven, filter_congr hentered]

/-- A walk looks at the rest of a tree only to see whether links lead to directories. -/
theorem walk_congr {node : FileTree} {base : List Text} (rules : List IgnoreRule) (directory : Text)
    (hordered : node.Ordered)
    (h : ∀ rest target, node.at? rest = some (.link target) →
      after.countsAsDirectory (base ++ rest) (.link target) =
        before.countsAsDirectory (base ++ rest) (.link target)) :
    after.walk rules base directory node = before.walk rules base directory node := by
  induction node using inductionOn generalizing base directory with
  | file content => rfl
  | locked problem => rfl
  | link target => rfl
  | directory entries ih =>
    have hentry : ∀ entry ∈ entries, after.countsAsDirectory (base ++ [entry.1]) entry.2 =
        before.countsAsDirectory (base ++ [entry.1]) entry.2 := by
      rintro ⟨name, child⟩ hmem
      cases child with
      | link target => exact h [name] target (at?_of_mem hordered hmem)
      | _ => rfl
    have hgiven : ∀ entry ∈ entries,
        isGiven after rules base directory entry = isGiven before rules base directory entry := by
      intro entry hmem
      unfold isGiven
      rw [hentry entry hmem]
    have hentered : ∀ entry ∈ entries,
        isEntered after rules base directory entry = isEntered before rules base directory entry := by
      intro entry hmem
      unfold isEntered
      rw [hentry entry hmem]
    rw [walk_directory, walk_directory, filter_congr hgiven, filter_congr hentered]
    refine congrArg _ (flatMap_congr fun entry hfilter => ?_)
    have hmem := mem_of_mem_filter hfilter
    have hat := at?_of_mem hordered hmem
    refine ih entry hmem _ (hordered.of_at? hat) fun rest target hlink => ?_
    rw [append_assoc]
    refine h (entry.1 :: rest) target ?_
    rw [← singleton_append, at?_append, hat]
    exact hlink

theorem ordered_filter (h : (directory entries).Ordered)
    (key : Text) : (directory (entries.filter (·.1 ≠ key))).Ordered := by
  refine eachDirectory_directory (h.increasing.sublist (filter_sublist.map _)) ?_
  intro name child hchild
  rw [lookup_filter_ne] at hchild
  split at hchild
  · cases hchild
  · exact EachDirectory.of_lookup h hchild

theorem exists_spot {tree : FileTree} (habsolute : root.absolute = true)
    (hup : "..".toList ∉ root.parts) (hview : tree.view root.parts = some .directory) :
    ∃ entries, tree.at? root.parts = some (.directory entries) ∧
      tree.spot root root = .ok (.node root.parts (.directory entries)) := by
  obtain ⟨entries, hentries⟩ := view_eq_directory_iff.mp hview
  refine ⟨entries, hentries, ?_⟩
  unfold FileTree.spot Path.join
  rw [if_pos habsolute]
  exact locate_of_leads (leads_self hentries nofun hup maxLinks)

namespace ChangedOutput

variable (h : ChangedOutput root before after)

include h

theorem workspace_after : after.view root.parts = some .directory :=
  h.within.stays h.workspace nofun

theorem eq_directory_of_view {label : Label} (hlabel : before.view (outputPlace root) = some label) :
    label = .directory := by
  cases label with
  | directory => rfl
  | file content =>
    obtain ⟨new, hnew⟩ := h.within.file hlabel
    cases hnew.symm.trans h.output
  | locked problem => cases (h.within.stays hlabel nofun).symm.trans h.output
  | link target => cases (h.within.stays hlabel nofun).symm.trans h.output

theorem lookup_eq {others : List (Text × FileTree)}
    (hentries : before.at? root.parts = some (.directory entries))
    (hothers : after.at? root.parts = some (.directory others)) (hname : name ≠ overviewDirectory) :
    others.lookup name = entries.lookup name := by
  rw [lookup_eq_at? hentries, lookup_eq_at? hothers]
  refine h.ordered.at?_eq_of_view_eq h.ordered_after fun rest => h.within.outside ?_
  rw [append_assoc, outputPlace_isPrefix_iff]
  rintro ⟨more, hmore⟩
  exact hname (cons.inj hmore).1

theorem filter_entries_eq {others : List (Text × FileTree)}
    (hentries : before.at? root.parts = some (.directory entries))
    (hothers : after.at? root.parts = some (.directory others)) :
    others.filter (·.1 ≠ overviewDirectory) = entries.filter (·.1 ≠ overviewDirectory) := by
  apply eq_of_lookup_eq (ordered_filter (h.ordered_after.of_at? hothers) _).increasing
    (ordered_filter (h.ordered.of_at? hentries) _).increasing
  intro name
  rw [lookup_filter_ne, lookup_filter_ne]
  by_cases hname : name = overviewDirectory
  · rw [if_pos hname, if_pos hname]
  · rw [if_neg hname, if_neg hname, h.lookup_eq hentries hothers hname]

/-- A link beside the output directory that does not lead there leads to a directory as before. -/
theorem countsAsDirectory_eq (hlinks : LinksAvoid before (outputPlace root)) (hnamed : before.Named)
    {rest : List Text} {target : Path}
    (hlink : before.at? (root.parts ++ rest) = some (.link target))
    (hclear : ¬ outputPlace root <+: root.parts ++ rest) :
    after.countsAsDirectory (root.parts ++ rest) (.link target) =
      before.countsAsDirectory (root.parts ++ rest) (.link target) := by
  refine (isFileAt_and_isDirectoryAt_congr (h.within.label_eq ?_)).2
  refine hlinks.avoids (fun hmem => (hnamed.isEntryName hlink _ hmem).notUp rfl) ?_ hclear maxLinks
  intro first more hsplit hne
  have hsplit : root.parts ++ rest = first ++ more := hsplit
  rw [hsplit] at hlink
  exact view_of_at?_append hlink hne

theorem files_eq (hlinks : LinksAvoid before (outputPlace root)) (hnamed : before.Named)
    (rules : List IgnoreRule) : files after root rules = files before root rules := by
  obtain ⟨entries, hentries, hspot⟩ := exists_spot h.absolute h.up_notMem h.workspace
  obtain ⟨others, hothers, hspotAfter⟩ := exists_spot h.absolute h.up_notMem h.workspace_after
  -- in both trees the entry under the name of output directories is a directory, if there is one
  have hdirectory : ∀ {tree : FileTree} {entries : List (Text × FileTree)}, tree.Ordered →
      tree.at? root.parts = some (.directory entries) →
      (∀ label, tree.view (outputPlace root) = some label → label = .directory) →
      ∀ entry ∈ entries, entry.1 = overviewDirectory → entry.2.isDirectory = true := by
    rintro tree entries hordered hat hlabel ⟨name, node⟩ hmem rfl
    have hlookup := (hordered.of_at? hat).lookup_of_mem hmem
    rw [lookup_eq_at? hat] at hlookup
    have hnode := hlabel _ (view_of_at? hlookup)
    cases node with
    | directory inner => rfl
    | file content => cases hnode
    | locked problem => cases hnode
    | link target => cases hnode
  -- what is left of the workspace without that entry holds the same links in both trees
  have hlink : ∀ rest target, (directory (entries.filter (·.1 ≠ overviewDirectory))).at? rest =
      some (.link target) → after.countsAsDirectory (root.parts ++ rest) (.link target) =
        before.countsAsDirectory (root.parts ++ rest) (.link target) := by
    intro rest target hrest
    cases rest with
    | nil => cases hrest
    | cons name rest =>
      rw [at?, lookup_filter_ne] at hrest
      by_cases hname : name = overviewDirectory
      · rw [if_pos hname] at hrest
        cases hrest
      · rw [if_neg hname] at hrest
        refine h.countsAsDirectory_eq hlinks hnamed ?_ ?_
        · rw [at?_append, hentries]
          exact hrest
        · rw [outputPlace_isPrefix_iff]
          rintro ⟨more, hmore⟩
          exact hname (cons.inj hmore).1
  calc
    files after root rules = after.walk rules root.parts [] (directory others) :=
      files_of_spot h.absolute hspotAfter rules
    _ = after.walk rules root.parts [] (directory (others.filter (·.1 ≠ overviewDirectory))) :=
      (walk_filter after rules _ [] (hdirectory h.ordered_after hothers fun label hlabel =>
        Option.some.inj (hlabel.symm.trans h.output))).symm
    _ = after.walk rules root.parts [] (directory (entries.filter (·.1 ≠ overviewDirectory))) := by
      rw [h.filter_entries_eq hentries hothers]
    _ = before.walk rules root.parts [] (directory (entries.filter (·.1 ≠ overviewDirectory))) :=
      walk_congr rules [] (ordered_filter (h.ordered.of_at? hentries) _) hlink
    _ = before.walk rules root.parts [] (directory entries) :=
      walk_filter before rules _ [] (hdirectory h.ordered hentries fun label =>
        h.eq_directory_of_view)
    _ = files before root rules := (files_of_spot h.absolute hspot rules).symm

end ChangedOutput

/-! ## Ignore rules and sources -/

theorem parts_join {base path : Path} (h : path.absolute = false) :
    (base.join path).parts = base.parts ++ path.parts := by
  unfold Path.join
  rw [h]
  rfl

theorem ofText_joinWith (hne : names ≠ []) (h : ∀ name ∈ names, IsEntryName name) :
    Path.ofText (joinWith ['/'] names) = ⟨false, names⟩ := by
  have hsplit := splitOn_joinWith hne h
  have hparts : Path.partsOf (joinWith ['/'] names) = names := by
    unfold Path.partsOf
    rw [hsplit, filter_eq_self]
    intro name hname
    simp [(h name hname).nonempty, (h name hname).notHere]
  have hhead : (joinWith ['/'] names).head? ≠ some '/' := by
    intro hslash
    obtain ⟨rest, hrest⟩ := head?_eq_some_iff.mp hslash
    rw [hrest, splitOn, if_pos rfl] at hsplit
    exact (h [] (hsplit ▸ mem_cons_self)).nonempty rfl
  unfold Path.ofText
  rw [hparts, beq_eq_false_iff_ne.mpr hhead]

theorem ofText_of_isEntryName {name : Text} (h : IsEntryName name) :
    Path.ofText name = ⟨false, [name]⟩ :=
  ofText_joinWith (cons_ne_nil name []) (forall_mem_singleton.mpr h)

theorem ignoreRules_congr
    (h : (after.node? root (.ofText ".gitignore".toList)).map label =
      (before.node? root (.ofText ".gitignore".toList)).map label) :
    ignoreRules after root = ignoreRules before root := by
  unfold ignoreRules
  obtain hsame | ⟨entries, others, hafter, hbefore⟩ := eq_or_directory_of_label_eq h
  · rw [hsame]
  · rw [hafter, hbefore]

namespace ChangedOutput

variable (h : ChangedOutput root before after) (hlinks : LinksAvoid before (outputPlace root))

include h in
/-- A path into the workspace that avoids the output directory there avoids it from the top on. -/
theorem avoids {file : Path} (hparts : (root.join file).parts = root.parts ++ names)
    (havoids : ∀ left, Avoids before (outputPlace root) left root.parts names) :
    Avoids before (outputPlace root) maxLinks [] (root.join file).parts := by
  obtain ⟨entries, hentries, -⟩ := exists_spot h.absolute h.up_notMem h.workspace
  rw [hparts]
  exact (leads_self hentries nofun h.up_notMem maxLinks).avoids_append havoids

include h hlinks

theorem ignoreRules_eq : ignoreRules after root = ignoreRules before root := by
  have hignore : Path.ofText ".gitignore".toList = ⟨false, [".gitignore".toList]⟩ := by decide
  have hclear : ¬ outputPlace root <+: root.parts ++ [".gitignore".toList] := by
    rw [outputPlace_isPrefix_iff]
    rintro ⟨rest, hrest⟩
    exact absurd (cons.inj hrest).1 (by decide)
  apply ignoreRules_congr
  rw [hignore]
  exact h.within.label_eq
    (h.avoids (parts_join rfl) (hlinks.avoids_entry h.workspace (by decide) hclear))

theorem readSource_eq (hnamed : before.Named) {rules : List IgnoreRule}
    (hpath : path ∈ files before root rules) :
    readSource after root path = readSource before root path := by
  obtain ⟨entries, hentries, hspot⟩ := exists_spot h.absolute h.up_notMem h.workspace
  obtain ⟨names, rfl, hfound⟩ := (mem_files_iff h.ordered hnamed h.absolute hspot).mp hpath
  obtain ⟨node, hbelow, hfile⟩ := hfound.file
  obtain ⟨first, more, hnames⟩ := hfound.exists_cons rfl
  have hentryNames := (hnamed.of_at? hentries).isEntryName hbelow
  have hnode : before.at? (root.parts ++ names) = some node := by
    rw [at?_append, hentries]
    exact hbelow
  have hclear : ¬ outputPlace root <+: root.parts ++ names := by
    rw [outputPlace_isPrefix_iff]
    rintro ⟨rest, rfl⟩
    cases rest with
    | nil =>
      have hlabel := h.eq_directory_of_view (view_of_at? hnode)
      cases node <;> cases hlabel
      cases hfile
    | cons last rest =>
      refine (hfound.entered [] overviewDirectory last rest rfl).1 ?_
      exact mem_append_right _ (mem_singleton_self _)
  have hup : "..".toList ∉ names := fun hmem => (hentryNames _ hmem).notUp rfl
  have hparts : (root.join (root.join (.ofText (joinWith ['/'] names)))).parts =
      root.parts ++ names := by
    rw [ofText_joinWith (hnames ▸ cons_ne_nil first more) hentryNames]
    unfold Path.join
    simp [h.absolute]
  have hread := h.within.read_eq
    (h.avoids hparts (hlinks.avoids hup (fun first rest hsplit hne => ?_) hclear))
  · unfold readSource
    rw [hread]
  · rw [hsplit, ← append_assoc] at hnode
    exact view_of_at?_append hnode hne

theorem wantedReadings_eq (hnamed : before.Named) (extensions : List Text)
    (rules : List IgnoreRule) :
    wantedReadings after root extensions rules = wantedReadings before root extensions rules := by
  unfold wantedReadings
  rw [h.files_eq hlinks hnamed]
  exact map_congr_left fun path hpath =>
    h.readSource_eq hlinks hnamed (mem_of_mem_filter hpath)

end ChangedOutput

end SourceAtlas.Workspace
