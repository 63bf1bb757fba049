import SourceAtlas.Proofs.Classification

/-!
# Categories under a changed list of rules

No rule ranks before another one: a file set is classified if at most one rule covers each file, and
then that rule alone gives the category. So the order of the rules does not matter, and a rule that
is added takes only files that had no category.
-/

namespace SourceAtlas

open List

variable {rules others first second : List Rule} {rule : Rule} {files : List FileSummary}
  {file : FileSummary} {table : Entries Text Text}

/-- The name of the first rule that covers a file, empty without such a rule. -/
def categoryOf (rules : List Rule) (file : FileSummary) : Text :=
  ((coveringRules rules file).map (·.name)).head?.getD []

def Uncontested (rules : List Rule) (files : List FileSummary) : Prop :=
  ∀ file ∈ files, (coveringRules rules file).length < 2

theorem exists_classifyAll_iff (rules : List Rule) (files : List FileSummary) :
    (∃ table, classifyAll rules files = .ok table) ↔ Uncontested rules files := by
  constructor
  · rintro ⟨table, hok⟩ file hfile
    exact length_coveringRules_lt_two hok hfile
  · intro hrules
    have hcontested : contested rules files = [] := by
      apply filter_eq_nil_iff.mpr
      intro file hfile
      have hlt := hrules file hfile
      simpa using hlt
    cases hresult : classifyAll rules files with
    | ok table => exact ⟨table, rfl⟩
    | error report =>
      exact absurd hcontested ((classifyAll_isError_iff rules files).mp ⟨report, hresult⟩)

theorem lookup_of_classifyAll (hdistinct : (files.map (·.path)).Nodup)
    (hok : classifyAll rules files = .ok table) (hfile : file ∈ files) :
    table.lookup file.path = some (categoryOf rules file) := by
  rw [classifyAll_of_ok hdistinct hok]
  apply Entries.lookup_of_mem
  · simpa [Function.comp_def] using hdistinct
  · exact mem_map.mpr ⟨file, hfile, rfl⟩

/-! ## Another order -/

theorem coveringRules_perm (h : rules.Perm others) (file : FileSummary) :
    (coveringRules rules file).Perm (coveringRules others file) :=
  h.filter _

theorem Uncontested.perm (h : rules.Perm others) (hrules : Uncontested rules files) :
    Uncontested others files := by
  intro file hfile
  rw [← (coveringRules_perm h file).length_eq]
  exact hrules file hfile

theorem categoryOf_perm (h : rules.Perm others) (hlt : (coveringRules rules file).length < 2) :
    categoryOf rules file = categoryOf others file := by
  have hperm := coveringRules_perm h file
  have hsame : coveringRules rules file = coveringRules others file := by
    cases hcover : coveringRules rules file with
    | nil =>
      rw [hcover] at hperm
      exact hperm.symm.eq_nil.symm
    | cons only rest =>
      rw [hcover, length_cons] at hlt
      obtain rfl : rest = [] := eq_nil_of_length_eq_zero (by omega)
      rw [hcover] at hperm
      exact hperm.symm.eq_singleton.symm
  rw [categoryOf, categoryOf, hsame]

theorem classifyAll_perm (hdistinct : (files.map (·.path)).Nodup) (h : rules.Perm others)
    (hok : classifyAll rules files = .ok table) : classifyAll others files = .ok table := by
  have hrules := (exists_classifyAll_iff rules files).mp ⟨table, hok⟩
  obtain ⟨found, hfound⟩ := (exists_classifyAll_iff others files).mpr (hrules.perm h)
  have hsame : found = table := by
    rw [classifyAll_of_ok hdistinct hfound, classifyAll_of_ok hdistinct hok]
    apply map_congr_left
    intro file hfile
    exact congrArg (file.path, ·) (categoryOf_perm h (hrules file hfile)).symm
  rw [hfound, hsame]

/-! ## One more rule -/

theorem coveringRules_insert_of_not_covers (h : rule.covers file.path file.extension = false) :
    coveringRules (first ++ [rule] ++ second) file = coveringRules (first ++ second) file := by
  simp [coveringRules, h]

theorem length_coveringRules_insert (h : rule.covers file.path file.extension = true) :
    (coveringRules (first ++ [rule] ++ second) file).length =
      (coveringRules (first ++ second) file).length + 1 := by
  simp only [coveringRules, filter_append, filter_cons, h, if_true, filter_nil,
    length_append, length_singleton]
  omega

/-- A rule may be added exactly if it covers only files that no other rule covers. -/
theorem uncontested_insert_iff :
    Uncontested (first ++ [rule] ++ second) files ↔
      Uncontested (first ++ second) files ∧
        ∀ file ∈ files, rule.covers file.path file.extension = true →
          coveringRules (first ++ second) file = [] := by
  constructor
  · intro hrules
    refine ⟨?_, ?_⟩
    · intro file hfile
      have hlt := hrules file hfile
      cases hcovers : rule.covers file.path file.extension with
      | false => rwa [coveringRules_insert_of_not_covers hcovers] at hlt
      | true =>
        rw [length_coveringRules_insert hcovers] at hlt
        omega
    · intro file hfile hcovers
      have hlt := hrules file hfile
      rw [length_coveringRules_insert hcovers] at hlt
      exact eq_nil_of_length_eq_zero (by omega)
  · rintro ⟨hrules, halone⟩ file hfile
    cases hcovers : rule.covers file.path file.extension with
    | false =>
      rw [coveringRules_insert_of_not_covers hcovers]
      exact hrules file hfile
    | true =>
      rw [length_coveringRules_insert hcovers, halone file hfile hcovers]
      exact Nat.lt_succ_self _

theorem categoryOf_of_coveringRules_eq_nil (h : coveringRules rules file = []) :
    categoryOf rules file = [] := by
  rw [categoryOf, h]
  rfl

theorem categoryOf_insert_of_covers (h : rule.covers file.path file.extension = true)
    (halone : coveringRules (first ++ second) file = []) :
    categoryOf (first ++ [rule] ++ second) file = rule.name := by
  have hboth : coveringRules first file = [] ∧ coveringRules second file = [] := by
    simpa only [coveringRules, filter_append, append_eq_nil_iff] using halone
  have honly : coveringRules (first ++ [rule] ++ second) file = [rule] := by
    rw [coveringRules, filter_append, filter_append]
    change coveringRules first file ++ [rule].filter _ ++ coveringRules second file = [rule]
    simp [hboth.1, hboth.2, h]
  rw [categoryOf, honly]
  rfl

/-- A list of rules may grow and be put in another order. With one more rule in any place a file set
is classified exactly if it was and the rule covers only files that no other rule covers; every other
file keeps its category, and those files had none and now have that of the rule. In any order of the
rules the file set is classified or not alike, with the same table. -/
theorem classifyAll_insert_and_perm (files : List FileSummary)
    (hdistinct : (files.map (·.path)).Nodup) :
    (∀ first second rule,
      ((∃ table, classifyAll (first ++ [rule] ++ second) files = .ok table) ↔
        (∃ table, classifyAll (first ++ second) files = .ok table) ∧
          ∀ file ∈ files, rule.covers file.path file.extension = true →
            ∀ other ∈ first ++ second, other.covers file.path file.extension = false) ∧
      ∀ table, classifyAll (first ++ [rule] ++ second) files = .ok table →
        ∃ before, classifyAll (first ++ second) files = .ok before ∧
          ∀ file ∈ files, ∃ category, before.lookup file.path = some category ∧
            ((rule.covers file.path file.extension = false ∧
                table.lookup file.path = some category) ∨
              (rule.covers file.path file.extension = true ∧ category = [] ∧
                table.lookup file.path = some rule.name))) ∧
    ∀ rules others : List Rule, rules.Perm others →
      ((∃ table, classifyAll rules files = .ok table) ↔
        ∃ table, classifyAll others files = .ok table) ∧
      ∀ table, classifyAll rules files = .ok table ↔ classifyAll others files = .ok table := by
  constructor
  · intro first second rule
    simp only [exists_classifyAll_iff, ← coveringRules_eq_nil_iff]
    refine ⟨uncontested_insert_iff, ?_⟩
    intro table hok
    have hrules := (exists_classifyAll_iff _ _).mp ⟨table, hok⟩
    obtain ⟨hless, halone⟩ := uncontested_insert_iff.mp hrules
    obtain ⟨before, hbefore⟩ := (exists_classifyAll_iff _ _).mpr hless
    refine ⟨before, hbefore, ?_⟩
    intro file hfile
    refine ⟨_, lookup_of_classifyAll hdistinct hbefore hfile, ?_⟩
    rw [lookup_of_classifyAll hdistinct hok hfile]
    cases hcovers : rule.covers file.path file.extension with
    | false =>
      left
      rw [categoryOf, categoryOf, coveringRules_insert_of_not_covers hcovers]
      exact ⟨rfl, rfl⟩
    | true =>
      right
      have hnone := halone file hfile hcovers
      exact ⟨rfl, categoryOf_of_coveringRules_eq_nil hnone,
        congrArg some (categoryOf_insert_of_covers hcovers hnone)⟩
  · intro rules others h
    have hiff : ∀ table, classifyAll rules files = .ok table ↔ classifyAll others files = .ok table :=
      fun table => ⟨classifyAll_perm hdistinct h, classifyAll_perm hdistinct h.symm⟩
    exact ⟨exists_congr hiff, hiff⟩

def extensionRule (name extension : String) : Rule :=
  ⟨name.toList, none, [], [], [], [], [extension.toList]⟩

def guideFiles : List FileSummary :=
  [FileSummary.blank "src/Cart.cs".toList ".cs".toList,
    FileSummary.blank "docs/Guide.md".toList ".md".toList]

/-- A rule for documents takes the guide, in the middle of the rules or behind them. -/
theorem classifyAll_guideFiles :
    (guideFiles.map (·.path)).Nodup ∧
      ∃ table before,
        classifyAll ([extensionRule "Code" ".cs"] ++ [extensionRule "Docs" ".md"] ++
          [extensionRule "Scripts" ".gd"]) guideFiles = .ok table ∧
        classifyAll ([extensionRule "Code" ".cs"] ++ [extensionRule "Scripts" ".gd"]) guideFiles =
          .ok before ∧
        (∀ file ∈ guideFiles, ∃ category, before.lookup file.path = some category ∧
          (((extensionRule "Docs" ".md").covers file.path file.extension = false ∧
              table.lookup file.path = some category) ∨
            ((extensionRule "Docs" ".md").covers file.path file.extension = true ∧
              category = [] ∧ table.lookup file.path = some "Docs".toList))) ∧
        classifyAll [extensionRule "Scripts" ".gd", extensionRule "Code" ".cs",
          extensionRule "Docs" ".md"] guideFiles = .ok table := by
  have hdistinct : (guideFiles.map (·.path)).Nodup := by decide
  obtain ⟨hinsert, hperm⟩ := classifyAll_insert_and_perm guideFiles hdistinct
  have hrules : Uncontested ([extensionRule "Code" ".cs"] ++ [extensionRule "Docs" ".md"] ++
      [extensionRule "Scripts" ".gd"]) guideFiles := by
    unfold Uncontested
    decide +kernel
  obtain ⟨table, htable⟩ := (exists_classifyAll_iff _ _).mpr hrules
  obtain ⟨before, hbefore, hkept⟩ := (hinsert _ _ _).2 table htable
  refine ⟨hdistinct, table, before, htable, hbefore, hkept, ?_⟩
  have hswap : ([extensionRule "Code" ".cs", extensionRule "Docs" ".md"] ++
      [extensionRule "Scripts" ".gd"]).Perm ([extensionRule "Scripts" ".gd"] ++
        [extensionRule "Code" ".cs", extensionRule "Docs" ".md"]) := perm_append_comm
  exact ((hperm _ _ hswap).2 table).mp htable

end SourceAtlas
