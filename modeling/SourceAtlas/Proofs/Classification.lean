import SourceAtlas.Classification
import SourceAtlas.Proofs.Entries

/-!
# Classification is exact and complete

The rules that cover a file decide everything: two or more make a conflict, one gives the category,
none leaves the category empty. A file set fails as a whole exactly when one of its files fails
alone, and the report then lists every such file once, in order.
-/

namespace SourceAtlas

open List

variable {rules : List Rule} {file : FileSummary} {files : List FileSummary}
  {table : Entries Text Text}

def coveringRules (rules : List Rule) (file : FileSummary) : List Rule :=
  rules.filter fun rule => rule.covers file.path file.extension

def conflictOf (rules : List Rule) (file : FileSummary) : Conflict :=
  ⟨file.path, (coveringRules rules file).map (·.name)⟩

def contested (rules : List Rule) (files : List FileSummary) : List FileSummary :=
  files.filter fun file => 2 ≤ (coveringRules rules file).length

theorem matchingCategories_eq (rules : List Rule) (file : FileSummary) :
    matchingCategories rules file.path file.extension =
      (coveringRules rules file).map (·.name) := rfl

theorem conflict?_of_two_le (htwo : 2 ≤ (coveringRules rules file).length) :
    conflict? rules file.path file.extension = some (conflictOf rules file) := by
  unfold conflict? conflictOf
  rw [matchingCategories_eq]
  cases hcover : coveringRules rules file with
  | nil => simp [hcover] at htwo
  | cons first rest =>
    cases rest with
    | nil => simp [hcover] at htwo
    | cons second rest => rfl

theorem conflict?_of_lt_two (hlt : (coveringRules rules file).length < 2) :
    conflict? rules file.path file.extension = none := by
  unfold conflict?
  rw [matchingCategories_eq]
  cases hcover : coveringRules rules file with
  | nil => rfl
  | cons first rest =>
    cases rest with
    | nil => rfl
    | cons second rest =>
      rw [hcover] at hlt
      simp only [length_cons] at hlt
      omega

theorem filterMap_conflict? (rules : List Rule) (files : List FileSummary) :
    (files.filterMap fun file => conflict? rules file.path file.extension) =
      (contested rules files).map (conflictOf rules) := by
  induction files with
  | nil => rfl
  | cons file rest ih =>
    by_cases htwo : 2 ≤ (coveringRules rules file).length
    · rw [filterMap_cons, conflict?_of_two_le htwo, ih]
      simp [contested, htwo]
    · rw [filterMap_cons, conflict?_of_lt_two (Nat.lt_of_not_le htwo), ih]
      simp [contested, htwo]

theorem classifyFile_of_two_le (htwo : 2 ≤ (coveringRules rules file).length) :
    classifyFile rules file.path file.extension = .error ⟨conflictOf rules file, []⟩ := by
  simp [classifyFile, conflict?_of_two_le htwo]

theorem classifyFile_of_lt_two (hlt : (coveringRules rules file).length < 2) :
    classifyFile rules file.path file.extension =
      .ok (((coveringRules rules file).map (·.name)).head?.getD []) := by
  simp [classifyFile, conflict?_of_lt_two hlt, matchingCategories_eq]

theorem classifyFile_isError_iff (rules : List Rule) (file : FileSummary) :
    (∃ report, classifyFile rules file.path file.extension = .error report) ↔
      2 ≤ (coveringRules rules file).length := by
  constructor
  · rintro ⟨report, herror⟩
    by_contra hnot
    rw [classifyFile_of_lt_two (Nat.lt_of_not_le hnot)] at herror
    cases herror
  · intro htwo
    exact ⟨_, classifyFile_of_two_le htwo⟩

theorem classifyAll_eq_error_iff (rules : List Rule) (files : List FileSummary)
    (report : ConflictReport) :
    classifyAll rules files = .error report ↔
      report.conflicts = (contested rules files).map (conflictOf rules) := by
  unfold classifyAll
  rw [filterMap_conflict?]
  cases (contested rules files).map (conflictOf rules) with
  | nil => simp [ConflictReport.ofList?, ConflictReport.conflicts]
  | cons first others =>
    obtain ⟨first', others'⟩ := report
    simp only [ConflictReport.ofList?, ConflictReport.conflicts, Except.error.injEq,
      ConflictReport.mk.injEq, cons.injEq]
    exact ⟨fun h => ⟨h.1.symm, h.2.symm⟩, fun h => ⟨h.1.symm, h.2.symm⟩⟩

theorem classifyAll_isError_iff (rules : List Rule) (files : List FileSummary) :
    (∃ report, classifyAll rules files = .error report) ↔ contested rules files ≠ [] := by
  constructor
  · rintro ⟨report, herror⟩ hnone
    have hconflicts := (classifyAll_eq_error_iff rules files report).mp herror
    simp [hnone, ConflictReport.conflicts] at hconflicts
  · intro hsome
    obtain ⟨file, rest, hcons⟩ := exists_cons_of_ne_nil hsome
    refine ⟨⟨conflictOf rules file, rest.map (conflictOf rules)⟩, ?_⟩
    rw [classifyAll_eq_error_iff, hcons]
    rfl

/-- Without contested files and with distinct paths, the table is the list of files in order. -/
theorem classifyAll_of_ok (hdistinct : (files.map (·.path)).Nodup)
    (hok : classifyAll rules files = .ok table) :
    table = files.map fun file =>
      (file.path, ((coveringRules rules file).map (·.name)).head?.getD []) := by
  unfold classifyAll at hok
  split at hok
  · cases hok
  · simp only [matchingCategories_eq, Except.ok.injEq] at hok
    rw [← hok]
    apply Entries.ofPairs_of_nodup
    simpa [Function.comp_def] using hdistinct

theorem length_coveringRules_lt_two (hok : classifyAll rules files = .ok table)
    (hfile : file ∈ files) : (coveringRules rules file).length < 2 := by
  by_contra hnot
  have hmem : file ∈ contested rules files :=
    mem_filter.mpr ⟨hfile, by simpa using Nat.le_of_not_lt hnot⟩
  obtain ⟨report, herror⟩ :=
    (classifyAll_isError_iff rules files).mpr (ne_nil_of_mem hmem)
  rw [hok] at herror
  cases herror

theorem coveringRules_eq_nil_iff (rules : List Rule) (file : FileSummary) :
    coveringRules rules file = [] ↔
      ∀ rule ∈ rules, rule.covers file.path file.extension = false := by
  simp [coveringRules, filter_eq_nil_iff]

/-- The category is the name of the only rule that covers the file, or empty without a rule. -/
def IsCategoryOf (rules : List Rule) (file : FileSummary) (category : Text) : Prop :=
  (∃ rule, coveringRules rules file = [rule] ∧ category = rule.name) ∨
    (coveringRules rules file = [] ∧ category = [])

theorem isCategoryOf_head (hlt : (coveringRules rules file).length < 2) :
    IsCategoryOf rules file (((coveringRules rules file).map (·.name)).head?.getD []) := by
  cases hcover : coveringRules rules file with
  | nil => exact Or.inr ⟨hcover, rfl⟩
  | cons rule rest =>
    have hrest : rest = [] := by
      rw [hcover, length_cons] at hlt
      exact eq_nil_of_length_eq_zero (by omega)
    subst hrest
    exact Or.inl ⟨rule, hcover, rfl⟩

/-- As long as rules have names, only a file without a rule has the empty category. -/
theorem IsCategoryOf.eq_nil_iff {category : Text} (hcategory : IsCategoryOf rules file category)
    (hnamed : ∀ rule ∈ rules, rule.name ≠ []) :
    category = [] ↔ ∀ rule ∈ rules, rule.covers file.path file.extension = false := by
  rw [← coveringRules_eq_nil_iff]
  rcases hcategory with ⟨rule, hcover, rfl⟩ | ⟨hnone, rfl⟩
  · have hmem : rule ∈ coveringRules rules file := by simp [hcover]
    have hname := hnamed rule (mem_of_mem_filter hmem)
    simp [hcover, hname]
  · simp [hnone]

/-- Classifying a file set agrees with classifying its files one by one. It fails exactly when one
of the files does; the report then holds every file that two or more rules cover, once and in
order, with the names of all these rules. Otherwise the table has the paths of the files as its
keys, and under each of them what the single file gets. -/
theorem classifyAll_exact (rules : List Rule) (files : List FileSummary)
    (hdistinct : (files.map (·.path)).Nodup) :
    ((∃ report, classifyAll rules files = .error report) ↔
        ∃ file ∈ files, ∃ report,
          classifyFile rules file.path file.extension = .error report) ∧
      (∀ report, classifyAll rules files = .error report →
        report.conflicts = (contested rules files).map (conflictOf rules) ∧
          (report.conflicts.map (·.path)).Nodup) ∧
      ∀ table, classifyAll rules files = .ok table →
        table.map Prod.fst = files.map (·.path) ∧
          ∀ file ∈ files, ∃ category,
            table.lookup file.path = some category ∧
              classifyFile rules file.path file.extension = .ok category ∧
              IsCategoryOf rules file category ∧
              ((∀ rule ∈ rules, rule.name ≠ []) → (category = [] ↔
                ∀ rule ∈ rules, rule.covers file.path file.extension = false)) := by
  refine ⟨?_, ?_, ?_⟩
  · rw [classifyAll_isError_iff]
    simp only [classifyFile_isError_iff, contested, ne_eq, filter_eq_nil_iff,
      decide_eq_true_eq, not_forall, not_not, exists_prop]
  · intro report herror
    have hconflicts := (classifyAll_eq_error_iff rules files report).mp herror
    refine ⟨hconflicts, ?_⟩
    have hsub : ((contested rules files).map (·.path)).Sublist (files.map (·.path)) :=
      filter_sublist.map _
    rw [hconflicts, map_map]
    exact hsub.nodup hdistinct
  · intro table hok
    have htable := classifyAll_of_ok hdistinct hok
    have hkeys : table.map Prod.fst = files.map (·.path) := by
      simp [htable, Function.comp_def]
    refine ⟨hkeys, ?_⟩
    intro file hfile
    have hlt := length_coveringRules_lt_two hok hfile
    have hcategory := isCategoryOf_head hlt
    refine ⟨_, ?_, classifyFile_of_lt_two hlt, hcategory, hcategory.eq_nil_iff⟩
    apply Entries.lookup_of_mem (hkeys ▸ hdistinct)
    rw [htable]
    exact mem_map.mpr ⟨file, hfile, rfl⟩

/-- Two rules share `src/Api.cs` and leave `src/Cart.cs` to one of them. -/
theorem classifyAll_shared_file : let rules : List Rule :=
      [⟨"Code".toList, none, [], [], [], [], [".cs".toList]⟩,
        ⟨"Api".toList, none, ["src/".toList], [], ["api".toList], [], []⟩]
    let files := [FileSummary.blank "src/Api.cs".toList ".cs".toList,
      FileSummary.blank "src/Cart.cs".toList ".cs".toList]
    (files.map (·.path)).Nodup ∧
      ∃ report, classifyAll rules files = .error report ∧
        report.conflicts = [⟨"src/Api.cs".toList, ["Code".toList, "Api".toList]⟩] := by
  intro rules files
  have hdistinct : (files.map (·.path)).Nodup := by decide
  have hexact := classifyAll_exact rules files hdistinct
  have hshared : 2 ≤ (coveringRules rules (files.head (by simp [files]))).length := by
    decide +kernel
  obtain ⟨report, herror⟩ := hexact.1.mpr ⟨_, head_mem _, _, classifyFile_of_two_le hshared⟩
  have hcontested : (contested rules files).map (conflictOf rules) =
      [⟨"src/Api.cs".toList, ["Code".toList, "Api".toList]⟩] := by decide +kernel
  exact ⟨hdistinct, report, herror, (hexact.2.1 report herror).1.trans hcontested⟩

end SourceAtlas
