import SourceAtlas.Proofs.Overview.Unreadable
import SourceAtlas.Proofs.Report.Sections

/-!
# The reports of a run

A run renders the report on the directory tree, the one on endpoints if it is asked for, and a report
for each entry of the settings that lists some file. They are kept under their names, and nothing
keeps the settings from using a name twice: then the last report under it is all that is left.
-/

namespace SourceAtlas

open List

namespace Overview

variable {engine : Report.Engine} {turn : Nat} {tree : FileTree} {found : Survey}
  {reports : Entries Text Text} {specs : List ReportSpec}

/-! ## Rendering -/

/-- What is rendered for an entry of the settings at its turn, if anything. -/
def Survey.body? (found : Survey) (engine : Report.Engine) (tree : FileTree)
    (entry : ReportSpec × Nat) : Option Text :=
  match specReport? engine entry.2 tree found entry.1 with
  | .ok body => body
  | .error _ => none

/-- The category reports of a survey under their names, in the order of their turns. -/
def Survey.categoryReports (found : Survey) (engine : Report.Engine) (tree : FileTree)
    (entries : List (ReportSpec × Nat)) : List (Text × Text) :=
  entries.filterMap fun entry => (found.body? engine tree entry).map fun text =>
    (entry.1.name, text)

/-- The reports of a survey that do not depend on categories. -/
def Survey.standingReports (found : Survey) (layout endpoints : Text) : List (Text × Text) :=
  (layoutFile, layout) :: (found.settings.endpoints.map fun _ => (endpointsFile, endpoints)).toList

theorem body?_of_specReport? {spec : ReportSpec} {body : Option Text}
    (h : specReport? engine turn tree found spec = .ok body) :
    found.body? engine tree (spec, turn) = body := by
  unfold Survey.body?
  rw [h]

/-- The entries of the settings are rendered one after the other, each at its turn. -/
theorem renderSpecs_eq_ok_iff {result : Entries Text Text} :
    (renderSpecs engine turn tree found reports specs).value = .ok result ↔
      (∀ entry ∈ specs.zipIdx turn, specReport? engine entry.2 tree found entry.1 =
          .ok (found.body? engine tree entry)) ∧
        result = (found.categoryReports engine tree (specs.zipIdx turn)).foldl
          (fun table report => Entries.put report.1 report.2 table) reports := by
  induction specs generalizing turn reports with
  | nil =>
    rw [renderSpecs, zipIdx_nil, Survey.categoryReports, filterMap_nil, foldl_nil]
    simp [eq_comm]
  | cons spec specs ih =>
    rw [renderSpecs, zipIdx_cons, forall_mem_cons, Survey.categoryReports, filterMap_cons]
    cases hspec : specReport? engine turn tree found spec with
    | error failure => simp
    | ok body =>
      rw [body?_of_specReport? hspec]
      cases body with
      | none =>
        dsimp only
        rw [ih]
        exact (and_congr_left fun _ => (and_iff_right rfl).symm)
      | some text =>
        dsimp only
        rw [ih]
        exact (and_congr_left fun _ => (and_iff_right rfl).symm)

theorem fixedReports_eq_ok_iff {fixed : Entries Text Text} :
    fixedReports engine tree found = .ok fixed ↔ ∃ content layout endpoints,
      layoutContent tree found.root found.settings.layout = .ok content ∧
      compose engine 0 tree found.settings content = .ok layout ∧
      (∀ rule, found.settings.endpoints = some rule →
        compose engine 1 tree found.settings (Report.endpointContent (some rule) found.files) =
          .ok endpoints) ∧
      fixed = found.standingReports layout endpoints := by
  unfold fixedReports Survey.standingReports
  simp only [bind_eq_ok_iff, mapError_eq_ok_iff]
  cases found.settings.endpoints with
  | none => simp [eq_comm]
  | some rule =>
    simp only [bind_eq_ok_iff]
    simp [eq_comm]

theorem ofPairs_standingReports (found : Survey) (layout endpoints : Text) :
    Entries.ofPairs (found.standingReports layout endpoints) =
      found.standingReports layout endpoints := by
  have hnames : [layoutFile, endpointsFile].Nodup := by decide
  apply Entries.ofPairs_of_nodup
  unfold Survey.standingReports
  cases found.settings.endpoints with
  | none => exact nodup_singleton layoutFile
  | some rule => exact hnames

/-- Rendering succeeds exactly if each report can be composed at its turn. -/
theorem render_value_eq_ok_iff :
    (render engine tree found).value = .ok reports ↔ ∃ content layout endpoints,
      layoutContent tree found.root found.settings.layout = .ok content ∧
      compose engine 0 tree found.settings content = .ok layout ∧
      (∀ rule, found.settings.endpoints = some rule →
        compose engine 1 tree found.settings (Report.endpointContent (some rule) found.files) =
          .ok endpoints) ∧
      (∀ entry ∈ found.settings.reports.zipIdx 2, specReport? engine entry.2 tree found entry.1 =
        .ok (found.body? engine tree entry)) ∧
      reports = Entries.ofPairs (found.standingReports layout endpoints ++
        found.categoryReports engine tree (found.settings.reports.zipIdx 2)) := by
  have hvalue : (render engine tree found).value = .ok reports ↔
      ∃ fixed, fixedReports engine tree found = .ok fixed ∧
        (renderSpecs engine 2 tree found fixed found.settings.reports).value = .ok reports := by
    unfold render
    cases fixedReports engine tree found <;> simp
  simp only [hvalue, renderSpecs_eq_ok_iff, fixedReports_eq_ok_iff, Entries.ofPairs_append,
    ofPairs_standingReports]
  constructor
  · rintro ⟨fixed, ⟨content, layout, endpoints, hcontent, hlayout, hendpoints, rfl⟩, hspecs, hreports⟩
    exact ⟨content, layout, endpoints, hcontent, hlayout, hendpoints, hspecs, hreports⟩
  · rintro ⟨content, layout, endpoints, hcontent, hlayout, hendpoints, hspecs, hreports⟩
    exact ⟨_, ⟨content, layout, endpoints, hcontent, hlayout, hendpoints, rfl⟩, hspecs, hreports⟩

/-! ## Runs -/

/-- A run that succeeds renders its standing reports and a report for each entry of the settings that
lists a file, and holds for every name the last report under it. So none of them is lost exactly if
reports under one name have one text. -/
theorem reports_of_run {tools : Tools} {here : Path} {path : Text} {config outputDir : Option Text}
    {dryRun : Bool} {outcome : Outcome}
    (h : (run tools tree here path config outputDir dryRun).outcome = .ok outcome) :
    ∃ found content layout endpoints,
      (survey tools.yaml tree here path config).value = .ok found ∧
      outcome.files = found.files ∧
      layoutContent tree found.root found.settings.layout = .ok content ∧
      compose tools.engine 0 tree found.settings content = .ok layout ∧
      (∀ rule, found.settings.endpoints = some rule →
        compose tools.engine 1 tree found.settings
          (Report.endpointContent (some rule) outcome.files) = .ok endpoints) ∧
      (∀ entry ∈ found.settings.reports.zipIdx 2,
        specReport? tools.engine entry.2 tree found entry.1 =
          .ok (found.body? tools.engine tree entry) ∧
        ((found.body? tools.engine tree entry).isSome = true ↔
          ∃ file ∈ outcome.files, file.types ≠ [] ∧ file.category ∈ entry.1.categories)) ∧
      let rendered := found.standingReports layout endpoints ++
        found.categoryReports tools.engine tree (found.settings.reports.zipIdx 2)
      (∀ name, outcome.reports.lookup name = rendered.reverse.lookup name) ∧
      ((∀ report ∈ rendered, outcome.reports.lookup report.1 = some report.2) ↔
        ∀ first ∈ rendered, ∀ second ∈ rendered, first.1 = second.1 → first.2 = second.2) := by
  obtain ⟨found, reports, hsurvey, hrender, rfl⟩ := exists_of_run_eq_ok h
  obtain ⟨content, layout, endpoints, hcontent, hlayout, hendpoints, hspecs, hreports⟩ :=
    render_value_eq_ok_iff.mp hrender
  refine ⟨found, content, layout, endpoints, hsurvey, rfl, hcontent, hlayout, hendpoints, ?_, ?_⟩
  · intro entry hentry
    have hbody := hspecs entry hentry
    exact ⟨hbody, Report.isSome_of_categoryReport? hbody⟩
  intro rendered
  have hheld : (found.delivered reports (outputDirectory found.root outputDir) dryRun).reports =
      Entries.ofPairs rendered := hreports
  rw [hheld]
  exact ⟨Entries.lookup_ofPairs rendered, Entries.forall_lookup_ofPairs_iff⟩

/-! ## Two reports under one name -/

/-- Tools that are of no use: every YAML text makes trouble and no template can be filled in. -/
def noTools : Tools :=
  ⟨fun _ => .endless, fun _ _ _ _ _ _ => .error [], .sound⟩

theorem compose_of_templatesDir_eq_none {settings : Settings} (h : settings.templatesDir = none)
    (content : Report.Content) :
    compose engine turn tree settings content = .ok (content.builtin settings.style) := by
  unfold compose Report.write
  rw [h]
  rfl

def straySection : Report.Section :=
  ⟨"A".toList, none,
    [{ Registry.emptySummary "b.gd".toList ".gd".toList with category := "A".toList }]⟩

theorem sections_stray (description : Option Text) :
    Report.sections (straySpec description) strayFound.files strayFound.settings.categories =
      [straySection] := by
  have hfilter : ([Registry.emptySummary "a.cs".toList ".cs".toList,
      Registry.emptySummary "b.gd".toList ".gd".toList].map (withCategory strayCategories)).filter
        (fun file => file.isParsed && file.category == "A".toList) =
      [{ Registry.emptySummary "b.gd".toList ".gd".toList with category := "A".toList }] := by decide
  have hfiles : Report.sectionFiles strayFound.files "A".toList =
      [{ Registry.emptySummary "b.gd".toList ".gd".toList with category := "A".toList }] := by
    unfold Report.sectionFiles strayFound surveyOf
    rw [scanAll_stray, hfilter]
    exact mergeSort_singleton _
  unfold Report.sections straySpec
  simp only [map_cons, map_nil, hfiles]
  rfl

/-- The report on scripts, whatever the engine and the turn. -/
def strayText (description : Option Text) : Text :=
  (Report.Content.category "R".toList description [straySection]).builtin .standard

theorem strayText_ne : strayText none ≠ strayText (some "last".toList) := by
  decide +kernel

theorem specReport?_stray (engine : Report.Engine) (turn : Nat) (description : Option Text) :
    specReport? engine turn stray strayFound (straySpec description) =
      .ok (some (strayText description)) := by
  have htemplates : strayFound.settings.templatesDir = none := rfl
  unfold specReport? Report.categoryReport?
  rw [sections_stray]
  simp only [isEmpty_cons, Bool.false_eq_true, if_false, compose_of_templatesDir_eq_none htemplates]
  rfl

theorem zipIdx_stray : strayFound.settings.reports.zipIdx 2 =
    [(straySpec none, 2), (straySpec (some "last".toList), 3)] :=
  rfl

theorem categoryReports_stray (engine : Report.Engine) :
    strayFound.categoryReports engine stray (strayFound.settings.reports.zipIdx 2) =
      [("out/R.md".toList, strayText none), ("out/R.md".toList, strayText (some "last".toList))] := by
  unfold Survey.categoryReports
  rw [zipIdx_stray, filterMap_cons, filterMap_cons, body?_of_specReport? (specReport?_stray ..),
    body?_of_specReport? (specReport?_stray ..)]
  rfl

theorem render_stray (engine : Report.Engine) :
    ∃ layout, (render engine stray strayFound).value = .ok
      [(layoutFile, layout), ("out/R.md".toList, strayText (some "last".toList))] := by
  have hcontent : ∃ content, layoutContent stray top none = .ok content := by
    unfold layoutContent Workspace.shownFiles
    rw [ignoreRules_stray]
    exact ⟨_, rfl⟩
  obtain ⟨content, hcontent⟩ := hcontent
  refine ⟨content.builtin .standard, render_value_eq_ok_iff.mpr ⟨content, _, [], hcontent,
    compose_of_templatesDir_eq_none rfl content, nofun, ?_, ?_⟩⟩
  · have hspec : ∀ turn description, specReport? engine turn stray strayFound (straySpec description) =
        .ok (strayFound.body? engine stray (straySpec description, turn)) := by
      intro turn description
      rw [body?_of_specReport? (specReport?_stray ..), specReport?_stray]
    rw [zipIdx_stray]
    exact forall_mem_cons.mpr ⟨hspec .., forall_mem_singleton.mpr (hspec ..)⟩
  · rw [categoryReports_stray]
    rfl

/-- The second of two reports under one name replaces the first. -/
theorem reports_of_run_stray : ∃ outcome first last,
    (run noTools stray top ".".toList none none true).outcome = .ok outcome ∧
    specReport? noTools.engine 2 stray strayFound (straySpec none) = .ok (some first) ∧
    specReport? noTools.engine 3 stray strayFound (straySpec (some "last".toList)) =
      .ok (some last) ∧
    first ≠ last ∧ outcome.reports.lookup "out/R.md".toList = some last := by
  obtain ⟨layout, hrender⟩ := render_stray noTools.engine
  have hrun := (run_of_render (survey_stray noTools.yaml) hrender).1.trans
    (deliver_of_dryRun noTools.disk stray top strayFound _ (outputDirectory strayFound.root none)).1
  obtain ⟨found, -, layout, endpoints, hsurvey, -, -, -, -, -, hlookup, -⟩ := reports_of_run hrun
  obtain rfl := Except.ok.inj ((survey_stray _).symm.trans hsurvey)
  refine ⟨_, strayText none, strayText (some "last".toList), hrun, specReport?_stray ..,
    specReport?_stray .., strayText_ne, ?_⟩
  rw [hlookup, categoryReports_stray, reverse_append]
  exact lookup_cons_self

end Overview

end SourceAtlas
