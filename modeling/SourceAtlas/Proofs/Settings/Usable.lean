import Mathlib.Data.List.Nodup
import SourceAtlas.Settings.Load

/-!
# Usable settings

Settings are accepted exactly when every report can be put together: there are categories with distinct
names and extensions, and reports that name some of these categories. Loaded settings are accepted ones,
so each category of a report stands for one rule, and headings have one of five levels.
-/

namespace SourceAtlas

open List

/-- Whether all categories and reports of some settings can be used. -/
structure Settings.IsUsable (settings : Settings) : Prop where
  someCategory : settings.categories ≠ []
  someReport : settings.reports ≠ []
  namedCategories : ∀ rule ∈ settings.categories, isBlankText rule.name = false
  distinctCategories : (settings.categories.map (·.name)).Nodup
  someExtension : ∀ rule ∈ settings.categories, rule.extensions ≠ []
  namedReports : ∀ report ∈ settings.reports, isBlankText report.name = false
  filledReports : ∀ report ∈ settings.reports, report.categories ≠ []
  knownCategories : ∀ report ∈ settings.reports, ∀ name ∈ report.categories,
    name ∈ settings.categories.map (·.name)

theorem ite_some_eq_none_iff {p : Prop} [Decidable p] {fault : SettingsFault}
    {other : Option SettingsFault} :
    (if p then some fault else other) = none ↔ ¬p ∧ other = none := by
  split <;> simp [*]

/-- Names before the categories are not to be repeated either. -/
theorem categoryFault?_eq_none_iff {known : List Text} {rules : List Rule} :
    categoryFault? known rules = none ↔
      (∀ rule ∈ rules, isBlankText rule.name = false) ∧ (rules.map (·.name)).Nodup ∧
        (∀ rule ∈ rules, rule.extensions ≠ []) ∧ ∀ rule ∈ rules, rule.name ∉ known := by
  induction rules generalizing known with
  | nil => simp [categoryFault?]
  | cons rule rest ih =>
    -- a later name is new if it is neither this one nor one of those before
    have hlater : (∀ other ∈ rest, other.name ∉ rule.name :: known) ↔
        rule.name ∉ rest.map (·.name) ∧ ∀ other ∈ rest, other.name ∉ known := by
      simp only [mem_cons, not_or, forall_and, mem_map, not_exists, not_and]
    rw [categoryFault?, ite_some_eq_none_iff, ite_some_eq_none_iff, ite_some_eq_none_iff, ih, hlater]
    simp only [Bool.not_eq_true, contains_iff_mem, List.isEmpty_iff, forall_mem_cons, map_cons,
      nodup_cons, ne_eq]
    tauto

theorem reportFault?_eq_none_iff {known : List Text} {report : ReportSpec} :
    reportFault? known report = none ↔ isBlankText report.name = false ∧ report.categories ≠ [] ∧
      ∀ name ∈ report.categories, name ∈ known := by
  rw [reportFault?, ite_some_eq_none_iff, ite_some_eq_none_iff]
  simp

namespace Settings

variable {yaml : YamlReader} {settings : Settings} {source : Path} {content : Bytes}

theorem fault?_eq_none_iff : settings.fault? = none ↔ settings.IsUsable := by
  have hfault : settings.fault? = none ↔ settings.categories ≠ [] ∧ settings.reports ≠ [] ∧
      categoryFault? [] settings.categories = none ∧
        ∀ report ∈ settings.reports, reportFault? (settings.categories.map (·.name)) report = none := by
    rw [fault?, ite_some_eq_none_iff, ite_some_eq_none_iff]
    cases categoryFault? [] settings.categories <;> simp
  rw [hfault, categoryFault?_eq_none_iff]
  simp only [reportFault?_eq_none_iff, forall_and]
  constructor
  · rintro ⟨hcategory, hreport, ⟨hnamed, hdistinct, hextension, -⟩, hnames, hfilled, hknown⟩
    exact ⟨hcategory, hreport, hnamed, hdistinct, hextension, hnames, hfilled, hknown⟩
  · intro h
    exact ⟨h.someCategory, h.someReport,
      ⟨h.namedCategories, h.distinctCategories, h.someExtension, fun _ _ => not_mem_nil⟩,
      h.namedReports, h.filledReports, h.knownCategories⟩

theorem exists_document_of_parse (h : parse yaml source content = .ok settings) :
    settings.fault? = none ∧ ∃ document, settings = ofDocument source document := by
  unfold parse at h
  split at h
  · cases h
  · split at h
    · cases h
    · split at h
      · dsimp only at h
        split at h
        · cases h
        · split at h
          · cases h
          · next hfault =>
            obtain rfl := Except.ok.inj h
            exact ⟨hfault, _, rfl⟩
      · cases h

theorem exists_parse_of_load {tree : FileTree} {here path : Path}
    (h : load yaml tree here path = .ok settings) :
    ∃ source content, parse yaml source content = .ok settings := by
  unfold load at h
  split at h
  · cases h
  · split at h
    · cases h
    · split at h
      · cases h
      · exact ⟨_, _, h⟩

theorem headerLevel_ofDocument (document : Document) :
    1 ≤ (MarkdownStyle.ofDocument document).headerLevel ∧
      (MarkdownStyle.ofDocument document).headerLevel ≤ 5 := by
  have hlevel : (MarkdownStyle.ofDocument document).headerLevel =
      ((document.field "headerlevel").integer?.map clampLevel).getD 2 := rfl
  rw [hlevel]
  cases (document.field "headerlevel").integer? with
  | none => simp
  | some level =>
    rw [Option.map_some, Option.getD_some, clampLevel]
    omega

/-- Settings are accepted exactly if they are usable, and otherwise there is a fault. In loaded
settings, whatever reader they were loaded with, each category of a report is the name of one rule,
and headings have a level from one to five. -/
theorem accepts_exactly_usable (settings : Settings) :
    (settings.fault? = none ↔ settings.IsUsable) ∧
      (¬settings.IsUsable → ∃ fault, settings.fault? = some fault) ∧
      ∀ yaml tree here path, load yaml tree here path = .ok settings →
        (∀ report ∈ settings.reports, ∀ name ∈ report.categories,
          (settings.categories.map (·.name)).count name = 1) ∧
          1 ≤ settings.style.headerLevel ∧ settings.style.headerLevel ≤ 5 := by
  refine ⟨fault?_eq_none_iff, ?_, ?_⟩
  · intro hnot
    rw [← fault?_eq_none_iff] at hnot
    exact Option.ne_none_iff_exists'.mp hnot
  · intro yaml tree here path h
    obtain ⟨source, content, hparse⟩ := exists_parse_of_load h
    obtain ⟨hfault, document, rfl⟩ := exists_document_of_parse hparse
    have husable := fault?_eq_none_iff.mp hfault
    refine ⟨fun report hreport name hname => ?_, headerLevel_ofDocument _⟩
    exact count_eq_one_of_mem husable.distinctCategories
      (husable.knownCategories report hreport name hname)

end Settings

end SourceAtlas
