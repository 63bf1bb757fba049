import SourceAtlas.Proofs.Outline.Reading

/-!
# An outline determines its paths

Reading an outline back gives every path that is no directory of another one, once, and every
directory in front of what it holds.
-/

namespace SourceAtlas

open List

namespace Outline

variable {entry : OutlineEntry} {path : Text} {paths : List Text}

/-- The paths of the files or of the directories among entries. -/
def pathsOf (isDirectory : Bool) (entries : List OutlineEntry) : List Text :=
  (entries.filter (·.isDirectory == isDirectory)).map (·.path)

def entriesOf (paths : List Text) : List OutlineEntry :=
  OutlineNode.entries (OutlineNode.arrange (OutlineNode.ofPaths paths))

theorem mem_entriesOf_iff : entry ∈ entriesOf paths ↔
    entry.parts ≠ [] ∧ (∃ path ∈ paths, entry.parts <+: splitOn '/' path) ∧
      (entry.isDirectory = true ↔
        ∃ path ∈ paths, ∃ name, entry.parts ++ [name] <+: splitOn '/' path) := by
  have hdistinct := (OutlineNode.distinct_ofPaths paths).arrange
  rw [entriesOf, OutlineNode.mem_entries_iff hdistinct]
  apply and_congr_right
  intro hne
  have hbeyond : (∃ name, ∃ path ∈ paths, entry.parts ++ [name] <+: splitOn '/' path) ↔
      ∃ path ∈ paths, ∃ name, entry.parts ++ [name] <+: splitOn '/' path := by
    constructor
    · rintro ⟨name, path, hpath, hlead⟩
      exact ⟨path, hpath, name, hlead⟩
    · rintro ⟨path, hpath, name, hlead⟩
      exact ⟨name, path, hpath, hlead⟩
  simp only [OutlineNode.leads_arrange, OutlineNode.leads_ofPaths_iff hne,
    OutlineNode.leads_ofPaths_iff (append_ne_nil_of_left_ne_nil hne _), hbeyond]

theorem splitOn_path (h : entry ∈ entriesOf paths) : splitOn '/' entry.path = entry.parts := by
  obtain ⟨hne, ⟨path, -, hlead⟩, -⟩ := mem_entriesOf_iff.mp h
  exact splitOn_joinWith_of_notMem hne fun part hpart =>
    notMem_of_mem_splitOn (hlead.subset hpart)

theorem mem_pathsOf_iff {isDirectory : Bool} : path ∈ pathsOf isDirectory (entriesOf paths) ↔
    ⟨splitOn '/' path, isDirectory⟩ ∈ entriesOf paths := by
  constructor
  · intro h
    obtain ⟨⟨parts, kind⟩, hentry, rfl⟩ := mem_map.mp h
    obtain ⟨hmem, hkind⟩ := mem_filter.mp hentry
    obtain rfl : kind = isDirectory := by simpa using hkind
    rwa [splitOn_path hmem]
  · intro h
    refine mem_map.mpr ⟨_, mem_filter.mpr ⟨h, by simp⟩, ?_⟩
    exact joinWith_splitOn '/' path

theorem mem_files_iff : path ∈ pathsOf false (entriesOf paths) ↔
    path ∈ paths ∧ ∀ other ∈ paths, ¬path ++ ['/'] <+: other := by
  rw [mem_pathsOf_iff, mem_entriesOf_iff]
  simp only [← append_singleton_prefix_iff, ne_eq, splitOn_ne_nil, not_false_eq_true, true_and,
    Bool.false_eq_true, false_iff, not_exists, not_and]
  constructor
  · rintro ⟨⟨other, hother, hlead⟩, hnone⟩
    refine ⟨?_, hnone⟩
    obtain ⟨more, hmore⟩ := hlead
    cases more with
    | nil =>
      -- the same parts make the same path
      rw [append_nil] at hmore
      rwa [← joinWith_splitOn '/' path, hmore, joinWith_splitOn]
    | cons next more =>
      refine absurd (append_singleton_prefix_iff.mpr ⟨next, more, ?_⟩) (hnone other hother)
      rw [append_assoc, singleton_append, hmore]
  · rintro ⟨hpath, hnone⟩
    exact ⟨⟨path, hpath, prefix_rfl⟩, hnone⟩

theorem mem_directories_iff : path ∈ pathsOf true (entriesOf paths) ↔
    ∃ other ∈ paths, path ++ ['/'] <+: other := by
  rw [mem_pathsOf_iff, mem_entriesOf_iff]
  simp only [← append_singleton_prefix_iff, ne_eq, splitOn_ne_nil, not_false_eq_true, true_and,
    true_iff, and_iff_right_iff_imp]
  rintro ⟨other, hother, hlead⟩
  obtain ⟨name, hname⟩ := append_singleton_prefix_iff.mp hlead
  exact ⟨other, hother, (prefix_append _ _).trans hname⟩

theorem pairwise_entriesOf (paths : List Text) :
    (entriesOf paths).Pairwise fun earlier later => ¬later.parts <+: earlier.parts :=
  OutlineNode.pairwise_entries (OutlineNode.distinct_ofPaths paths).arrange

theorem nodup_pathsOf (isDirectory : Bool) (paths : List Text) :
    (pathsOf isDirectory (entriesOf paths)).Nodup := by
  rw [pathsOf, Nodup, pairwise_map]
  apply ((pairwise_entriesOf paths).filter _).imp_of_mem
  intro earlier later hearlier hlater hnot hsame
  apply hnot
  rw [← splitOn_path (mem_filter.mp hearlier).1, ← splitOn_path (mem_filter.mp hlater).1,
    hsame]

theorem pairwise_path (paths : List Text) :
    (entriesOf paths).Pairwise fun earlier later => ¬later.path ++ ['/'] <+: earlier.path := by
  apply (pairwise_entriesOf paths).imp_of_mem
  intro earlier later hearlier hlater hnot hlead
  obtain ⟨name, hname⟩ := append_singleton_prefix_iff.mp hlead
  rw [splitOn_path hearlier, splitOn_path hlater] at hname
  exact hnot ((prefix_append _ _).trans hname)

/-- An outline determines its paths. Read back, it gives the paths that are no directory of another
path, each of them once, and the directories of the paths, each of them once and before its contents.
Below the lines of the root there is one line for each entry, with a slash at the end of a directory.
As long as no two siblings have the same name up to letter case, neither the order of the paths nor
how often they are there matters. -/
theorem renderOutline_determines_paths (root : Text) (paths : List Text)
    (hfeed : ∀ path ∈ paths, '\n' ∉ path) :
    let shown := read (renderOutline root paths)
    ((pathsOf false shown).Nodup ∧ ∀ path, path ∈ pathsOf false shown ↔
        path ∈ paths ∧ ∀ other ∈ paths, ¬path ++ ['/'] <+: other) ∧
      ((pathsOf true shown).Nodup ∧ ∀ path, path ∈ pathsOf true shown ↔
        ∃ other ∈ paths, path ++ ['/'] <+: other) ∧
      (∃ drawn, splitOn '\n' (renderOutline root paths) = splitOn '\n' (root ++ ['/']) ++ drawn ∧
        Forall₂ Shows drawn shown) ∧
      (shown.Pairwise fun earlier later => ¬later.path ++ ['/'] <+: earlier.path) ∧
      (SiblingsApart paths → ∀ others, (∀ path, path ∈ others ↔ path ∈ paths) →
        renderOutline root others = renderOutline root paths) := by
  intro shown
  have hshown : shown = entriesOf paths := read_renderOutline hfeed
  rw [hshown]
  refine ⟨⟨nodup_pathsOf false paths, fun path => mem_files_iff⟩,
    ⟨nodup_pathsOf true paths, fun path => mem_directories_iff⟩,
    ⟨_, splitOn_renderOutline hfeed, ?_⟩, pairwise_path paths, ?_⟩
  · exact (shows_sketch _).imp fun line entry h => h.2
  · exact fun hapart others hothers => renderOutline_congr hapart hothers root

/-- A root of two lines and a name that looks like a branch. -/
theorem renderOutline_determines_twigs : let root := "top\n└── r".toList
    let paths := ["a/b".toList, "└── c".toList, "a".toList]
    let shown := read (renderOutline root paths)
    (∀ path ∈ paths, '\n' ∉ path) ∧ SiblingsApart paths ∧
      "└── c".toList ∈ pathsOf false shown ∧ "a".toList ∉ pathsOf false shown ∧
      "a".toList ∈ pathsOf true shown ∧
      renderOutline root paths.reverse = renderOutline root paths := by
  intro root paths shown
  have hcheck : (paths.all fun path => !path.contains '\n' &&
      (splitOn '/' path).all fun part => lower part == part) = true := by decide +kernel
  have hpath := fun path hmem => Bool.and_eq_true_iff.mp (all_eq_true.mp hcheck path hmem)
  have hfeed : ∀ path ∈ paths, '\n' ∉ path := fun path hmem => by simpa using (hpath path hmem).1
  have hsmall : ∀ path ∈ paths, ∀ above name, above ++ [name] <+: splitOn '/' path →
      lower name = name := by
    intro path hmem above name hlead
    have hname : name ∈ splitOn '/' path := hlead.subset (by simp)
    exact eq_of_beq (all_eq_true.mp (hpath path hmem).2 name hname)
  have hapart : SiblingsApart paths := by
    intro path hmem other hother above first second hfirst hsecond hlower
    rwa [hsmall path hmem above first hfirst, hsmall other hother above second hsecond] at hlower
  obtain ⟨⟨-, hfiles⟩, ⟨-, hdirectories⟩, -, -, hcongr⟩ :=
    renderOutline_determines_paths root paths hfeed
  refine ⟨hfeed, hapart, ?_, ?_, ?_, hcongr hapart paths.reverse fun path => mem_reverse⟩
  · exact (hfiles _).mpr ⟨by simp [paths], by decide +kernel⟩
  · intro hfile
    exact ((hfiles _).mp hfile).2 "a/b".toList (by simp [paths]) ⟨['b'], rfl⟩
  · exact (hdirectories _).mpr ⟨"a/b".toList, by simp [paths], ['b'], rfl⟩

end Outline

end SourceAtlas
