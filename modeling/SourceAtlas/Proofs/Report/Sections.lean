import SourceAtlas.Overview.Survey
import SourceAtlas.Proofs.Classification
import SourceAtlas.Proofs.Settings.Usable
import SourceAtlas.Proofs.Text.Order
import SourceAtlas.Report.Category

/-!
# The sections of a category report

A report has a section for each of its categories that some parsed file is in. Nothing keeps a
report from naming a category twice, and then it lists the files of that category twice. So a file
is listed as often as the report names its category.
-/

namespace SourceAtlas

open List

namespace Report

variable {spec : ReportSpec} {files : List FileSummary} {rules : List Rule} {file : FileSummary}
  {category : Text} {part : Section}

theorem mem_sectionFiles_iff :
    file ∈ sectionFiles files category ↔
      file ∈ files ∧ file.types ≠ [] ∧ file.category = category := by
  rw [sectionFiles, mem_mergeSort, mem_filter, Bool.and_eq_true, beq_iff_eq,
    FileSummary.isParsed, Bool.not_eq_true', isEmpty_eq_false_iff]

theorem increasing_sectionFiles (h : (files.map (·.path)).Nodup) (category : Text) :
    ((sectionFiles files category).map (·.path)).Pairwise (· < ·) := by
  apply increasing_mergeSort_key
  exact (filter_sublist.map _).nodup h

theorem count_sectionFiles (hnodup : files.Nodup) (hfile : file ∈ files) (htypes : file.types ≠ [])
    (category : Text) :
    (sectionFiles files category).count file = if category = file.category then 1 else 0 := by
  by_cases hcategory : category = file.category
  · have hmem : file ∈ sectionFiles files category :=
      mem_sectionFiles_iff.mpr ⟨hfile, htypes, hcategory.symm⟩
    have honce : (sectionFiles files category).Nodup :=
      (mergeSort_perm ..).nodup_iff.mpr (hnodup.filter _)
    rw [if_pos hcategory, count_eq_one_of_mem honce hmem]
  · rw [if_neg hcategory, count_eq_zero]
    intro hmem
    exact hcategory (mem_sectionFiles_iff.mp hmem).2.2.symm

theorem sectionFiles_ne_nil_iff :
    sectionFiles files category ≠ [] ↔
      ∃ file ∈ files, file.types ≠ [] ∧ file.category = category := by
  rw [← isEmpty_eq_false_iff, isEmpty_eq_false_iff_exists_mem]
  simp only [mem_sectionFiles_iff]

/-! ## All sections -/

theorem mem_sections_iff :
    part ∈ sections spec files rules ↔
      part.name ∈ spec.categories ∧ part.description = categoryDescription? rules part.name ∧
        part.files = sectionFiles files part.name ∧ part.files ≠ [] := by
  simp only [sections, mem_filter, mem_map, Bool.not_eq_true', isEmpty_eq_false_iff]
  constructor
  · rintro ⟨⟨name, hname, rfl⟩, hfiles⟩
    exact ⟨hname, rfl, rfl, hfiles⟩
  · rintro ⟨hname, hdescription, hlisted, hfiles⟩
    exact ⟨⟨part.name, hname, by rw [← hdescription, ← hlisted]⟩, hfiles⟩

theorem map_name_sections (spec : ReportSpec) (files : List FileSummary) (rules : List Rule) :
    (sections spec files rules).map (·.name) =
      spec.categories.filter fun name => !(sectionFiles files name).isEmpty := by
  rw [sections, filter_map, map_map]
  exact map_id _

/-- The sections that are left out hold no file, so leaving them out loses nothing. -/
theorem flatMap_files_sections (spec : ReportSpec) (files : List FileSummary) (rules : List Rule) :
    (sections spec files rules).flatMap (·.files) =
      spec.categories.flatMap (sectionFiles files) := by
  unfold sections
  induction spec.categories with
  | nil => rfl
  | cons name rest ih =>
    rw [map_cons, filter_cons, flatMap_cons, ← ih]
    cases hlisted : sectionFiles files name with
    | nil => rfl
    | cons first others => rfl

theorem count_flatMap_sectionFiles (hnodup : files.Nodup) (hfile : file ∈ files)
    (htypes : file.types ≠ []) (categories : List Text) :
    (categories.flatMap (sectionFiles files)).count file = categories.count file.category := by
  induction categories with
  | nil => rfl
  | cons name rest ih =>
    rw [flatMap_cons, count_append, ih, count_sectionFiles hnodup hfile htypes,
      count_cons, Nat.add_comm]
    simp only [beq_iff_eq]

theorem sections_eq_nil_iff :
    sections spec files rules = [] ↔
      ∀ file ∈ files, file.types ≠ [] → file.category ∉ spec.categories := by
  rw [eq_nil_iff_forall_not_mem]
  constructor
  · intro hnone file hfile htypes hcategory
    apply hnone ⟨file.category, categoryDescription? rules file.category,
      sectionFiles files file.category⟩
    have hlisted := sectionFiles_ne_nil_iff.mpr ⟨file, hfile, htypes, rfl⟩
    exact mem_sections_iff.mpr ⟨hcategory, rfl, rfl, hlisted⟩
  · intro hnone part hpart
    obtain ⟨hname, -, hfiles, hlisted⟩ := mem_sections_iff.mp hpart
    obtain ⟨file, hfile, htypes, hcategory⟩ := sectionFiles_ne_nil_iff.mp (hfiles ▸ hlisted)
    exact hnone file hfile htypes (hcategory ▸ hname)

theorem categoryReport?_eq_none_iff {ε : Type} (write : Content → Except ε Text)
    (spec : ReportSpec) (files : List FileSummary) (rules : List Rule) :
    categoryReport? write spec files rules = .ok none ↔
      ∀ file ∈ files, file.types ≠ [] → file.category ∉ spec.categories := by
  rw [← @sections_eq_nil_iff spec files rules]
  unfold categoryReport?
  dsimp only
  split
  · next hempty => exact iff_of_true rfl (List.isEmpty_iff.mp hempty)
  · next hempty =>
    refine iff_of_false ?_ fun hnil => hempty (List.isEmpty_iff.mpr hnil)
    generalize write _ = written
    cases written <;> nofun

/-- There is a category report exactly if a file with a type is in one of its categories. -/
theorem isSome_of_categoryReport? {ε : Type} {write : Content → Except ε Text}
    {body : Option Text} (h : categoryReport? write spec files rules = .ok body) :
    body.isSome = true ↔ ∃ file ∈ files, file.types ≠ [] ∧ file.category ∈ spec.categories := by
  have hnone : body = none ↔ ∀ file ∈ files, file.types ≠ [] → file.category ∉ spec.categories := by
    rw [← categoryReport?_eq_none_iff write spec files rules, h, Except.ok.injEq]
  rw [Option.isSome_iff_ne_none, ne_eq, hnone]
  push Not
  rfl

end Report

/-! ## Accepted settings -/

theorem Settings.exists_category_of_mem_report {settings : Settings} (h : settings.fault? = none)
    {spec : ReportSpec} (hspec : spec ∈ settings.reports) {name : Text}
    (hname : name ∈ spec.categories) :
    ∃ rule ∈ settings.categories, rule.name = name ∧ name ≠ [] := by
  have husable := fault?_eq_none_iff.mp h
  obtain ⟨rule, hrule, rfl⟩ := mem_map.mp (husable.knownCategories spec hspec name hname)
  refine ⟨rule, hrule, rfl, fun hnil => ?_⟩
  have hblank := husable.namedCategories rule hrule
  rw [hnil] at hblank
  cases hblank

theorem isCategoryOf_withCategory {rules : List Rule} {files : List FileSummary}
    {table : Entries Text Text} (hdistinct : (files.map (·.path)).Nodup)
    (htable : classifyAll rules files = .ok table) {file : FileSummary} (hfile : file ∈ files) :
    IsCategoryOf rules file (Overview.withCategory table file).category := by
  have hentries := classifyAll_of_ok hdistinct htable
  have hkeys : (table.map Prod.fst).Nodup := by
    rw [hentries, map_map]
    exact hdistinct
  have hlookup : table.lookup file.path =
      some (((coveringRules rules file).map (·.name)).head?.getD []) := by
    apply Entries.lookup_of_mem hkeys
    rw [hentries]
    exact mem_map_of_mem hfile
  have hcategory : (Overview.withCategory table file).category =
      ((coveringRules rules file).map (·.name)).head?.getD [] := by
    rw [Overview.withCategory, hlookup, Option.getD_some]
  rw [hcategory]
  exact isCategoryOf_head (length_coveringRules_lt_two htable hfile)

/-- Among names that are not empty, the category of a file is exactly the name of a rule that
covers it. -/
theorem IsCategoryOf.mem_iff {rules : List Rule} {file : FileSummary} {category : Text}
    {names : List Text} (hcategory : IsCategoryOf rules file category) (hnames : [] ∉ names) :
    category ∈ names ↔
      ∃ rule ∈ rules, rule.covers file.path file.extension = true ∧ rule.name ∈ names := by
  have hcover : (∃ rule ∈ rules, rule.covers file.path file.extension = true ∧ rule.name ∈ names) ↔
      ∃ rule ∈ coveringRules rules file, rule.name ∈ names := by
    simp only [coveringRules, mem_filter, and_assoc]
  rw [hcover]
  obtain ⟨rule, hrules, rfl⟩ | ⟨hrules, rfl⟩ := hcategory
  · simp only [hrules, mem_singleton, exists_eq_left]
  · simp only [hrules, not_mem_nil, false_and, exists_false, iff_false]
    exact hnames

namespace Report

/-- In a report of accepted settings, a file with a type is listed as often as the report names its
category, and always under it; so it is listed once when the report names no category twice. It is
listed exactly if the report names a rule that covers it. The sections stand in the order in which
the report names its categories, the files of each in the order of their paths, and there is no
report exactly if it has no file to list. -/
theorem listed_as_often_as_named {settings : Settings} (haccepted : settings.fault? = none)
    {spec : ReportSpec} (hspec : spec ∈ settings.reports) {files : List FileSummary}
    (hdistinct : (files.map (·.path)).Nodup) {table : Entries Text Text}
    (htable : classifyAll settings.categories files = .ok table) :
    let classified := files.map (Overview.withCategory table)
    let parts := sections spec classified settings.categories
    (∀ file ∈ classified, file.types ≠ [] →
        (parts.flatMap (·.files)).count file = spec.categories.count file.category ∧
          (spec.categories.Nodup → file.category ∈ spec.categories →
            (parts.flatMap (·.files)).count file = 1)) ∧
      (∀ part ∈ parts, ∀ file, file ∈ part.files ↔
        file ∈ classified ∧ file.types ≠ [] ∧ file.category = part.name) ∧
      (∀ file ∈ files, file.types ≠ [] →
        ((∃ part ∈ parts, Overview.withCategory table file ∈ part.files) ↔
          ∃ rule ∈ settings.categories,
            rule.covers file.path file.extension = true ∧ rule.name ∈ spec.categories)) ∧
      (parts.map (·.name) = spec.categories.filter fun name =>
        classified.any fun file => file.isParsed && file.category == name) ∧
      (∀ part ∈ parts, (part.files.map (·.path)).Pairwise (· < ·)) ∧
      ∀ (ε : Type) (write : Content → Except ε Text),
        categoryReport? write spec classified settings.categories = .ok none ↔
          ∀ file ∈ classified, file.types ≠ [] → file.category ∉ spec.categories := by
  intro classified parts
  have hpaths : (classified.map (·.path)).Nodup := by
    rw [map_map]
    exact hdistinct
  have hnodup : classified.Nodup := hpaths.of_map _
  have hnames : [] ∉ spec.categories := by
    intro hmem
    obtain ⟨rule, -, -, hname⟩ := Settings.exists_category_of_mem_report haccepted hspec hmem
    exact hname rfl
  refine ⟨?_, ?_, ?_, ?_, ?_, ?_⟩
  · intro file hfile htypes
    have hcount : (parts.flatMap (·.files)).count file = spec.categories.count file.category := by
      rw [flatMap_files_sections]
      exact count_flatMap_sectionFiles hnodup hfile htypes _
    exact ⟨hcount, fun honce hmem => hcount.trans (count_eq_one_of_mem honce hmem)⟩
  · intro part hpart file
    rw [(mem_sections_iff.mp hpart).2.2.1]
    exact mem_sectionFiles_iff
  · intro file hfile htypes
    rw [← (isCategoryOf_withCategory hdistinct htable hfile).mem_iff hnames]
    have hclassified : Overview.withCategory table file ∈ classified := mem_map_of_mem hfile
    have hlisted : Overview.withCategory table file ∈ parts.flatMap (·.files) ↔
        (Overview.withCategory table file).category ∈ spec.categories := by
      rw [← count_pos_iff, ← count_pos_iff, flatMap_files_sections,
        count_flatMap_sectionFiles hnodup hclassified htypes]
    rw [← hlisted, mem_flatMap]
  · rw [map_name_sections]
    apply filter_congr
    intro name _
    rw [Bool.eq_iff_iff, Bool.not_eq_true', isEmpty_eq_false_iff, sectionFiles_ne_nil_iff,
      any_eq_true]
    simp [FileSummary.isParsed]
  · intro part hpart
    rw [(mem_sections_iff.mp hpart).2.2.1]
    exact increasing_sectionFiles hpaths part.name
  · exact fun ε write => categoryReport?_eq_none_iff write spec _ _

/-- Settings with one category, which their report names twice. -/
def repeatingSettings : Settings :=
  { source := .ofText "settings.json".toList
    layout := none
    endpoints := none
    categories := [⟨"Code".toList, none, [], [], [], [], [".cs".toList]⟩]
    reports := [⟨"Code.md".toList, none, ["Code".toList, "Code".toList]⟩]
    style := .standard
    templatesDir := none }

theorem listed_twice :
    let spec : ReportSpec := ⟨"Code.md".toList, none, ["Code".toList, "Code".toList]⟩
    let cart : FileSummary := ⟨"Cart.cs".toList, ".cs".toList,
      [⟨"Cart".toList, .classType, [], [], [], [], [], []⟩], [], []⟩
    let table : Entries Text Text := [("Cart.cs".toList, "Code".toList)]
    repeatingSettings.fault? = none ∧ spec ∈ repeatingSettings.reports ∧
      ([cart].map (·.path)).Nodup ∧ classifyAll repeatingSettings.categories [cart] = .ok table ∧
      ((sections spec ([cart].map (Overview.withCategory table)) repeatingSettings.categories).flatMap
        (·.files)).count (Overview.withCategory table cart) = 2 := by
  intro spec cart table
  have haccepted : repeatingSettings.fault? = none := by decide +kernel
  have hspec : spec ∈ repeatingSettings.reports := by decide
  have hdistinct : ([cart].map (·.path)).Nodup := by decide
  have htable : classifyAll repeatingSettings.categories [cart] = .ok table := by rfl
  have htypes : (Overview.withCategory table cart).types ≠ [] := cons_ne_nil _ _
  have hlisted := (listed_as_often_as_named haccepted hspec hdistinct htable).1
    (Overview.withCategory table cart) mem_cons_self htypes
  exact ⟨haccepted, hspec, hdistinct, htable, hlisted.1⟩

end Report

end SourceAtlas
