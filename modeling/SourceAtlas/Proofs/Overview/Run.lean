import SourceAtlas.Overview.Run
import SourceAtlas.Proofs.Workspace.Walk

/-!
# What surveys and runs can do

A survey succeeds when the root is found, the settings load, the ignore file can be read and no file
has two categories. A run fails with its survey or with a template, before anything is written, or it
delivers its reports.
-/

namespace SourceAtlas.Overview

variable {reports : Entries Text Text} {target : Path} {turn : Nat}

variable {yaml : YamlReader} {engine : Report.Engine} {disk : Disk} {tools : Tools}
  {tree : FileTree} {here : Path} {path : Text} {config outputDir : Option Text} {dryRun : Bool}
  {found : Survey} {failure : Failure} {outcome : Outcome}

/-! ## Surveys -/

/-- The sources that the built-in parsers scan. -/
def scanned (tree : FileTree) (root : Path) (rules : List IgnoreRule) : List Source :=
  Workspace.sorted
    ((Workspace.wantedReadings tree root Registry.builtin.extensions rules).map (·.source))

/-- What a survey finds below a root when its settings, its ignore rules and its classification are
known. -/
def surveyOf (tree : FileTree) (root : Path) (rules : List IgnoreRule) (settings : Settings)
    (classification : Entries Text Text) : Survey :=
  { root, settings, classification
    files := (Registry.builtin.scanAll (scanned tree root rules)).1.map
      (withCategory classification)
    unparsed := (Registry.builtin.scanAll (scanned tree root rules)).2 }

section Files

variable {root : Path} {settings : Settings} {rules : List IgnoreRule}

theorem surveyFiles_of_rules (hrules : Workspace.ignoreRules tree root = .ok rules) :
    (surveyFiles tree root settings).value =
      match classifyAll settings.categories
          (Registry.builtin.scanAll (scanned tree root rules)).1 with
      | .error report => .error (.conflict report)
      | .ok classification => .ok (surveyOf tree root rules settings classification) := by
  unfold surveyFiles
  rw [Workspace.readings_eq, hrules]
  rfl

theorem surveyFiles_of_fault {fault : FileFault}
    (hrules : Workspace.ignoreRules tree root = .error fault) :
    (surveyFiles tree root settings).value = .error (.ignoreFile fault) := by
  unfold surveyFiles
  rw [Workspace.readings_eq, hrules]
  rfl

end Files

theorem survey_value_eq_ok_iff :
    (survey yaml tree here path config).value = .ok found ↔
      ∃ root settings rules classification, Workspace.resolveRoot tree here path = .ok root ∧
        Settings.load yaml tree here (settingsPath root config) = .ok settings ∧
        Workspace.ignoreRules tree root = .ok rules ∧
        classifyAll settings.categories (Registry.builtin.scanAll (scanned tree root rules)).1 =
          .ok classification ∧
        found = surveyOf tree root rules settings classification := by
  unfold survey
  cases hroot : Workspace.resolveRoot tree here path with
  | error fault => simp
  | ok root =>
    cases hload : Settings.load yaml tree here (settingsPath root config) with
    | error fault => simp [hload]
    | ok settings =>
      cases hrules : Workspace.ignoreRules tree root with
      | error fault => simp [hload, hrules, surveyFiles_of_fault hrules]
      | ok rules =>
        cases hclassified : classifyAll settings.categories
            (Registry.builtin.scanAll (scanned tree root rules)).1 with
        | error report => simp [hload, hrules, hclassified, surveyFiles_of_rules hrules]
        | ok classification =>
          simp [hload, hrules, hclassified, surveyFiles_of_rules hrules, eq_comm]

theorem survey_value_ne_writing (fault : WriteFault) :
    (survey yaml tree here path config).value ≠ .error (.writing fault) := by
  unfold survey
  cases Workspace.resolveRoot tree here path with
  | error fault => simp
  | ok root =>
    dsimp only
    cases Settings.load yaml tree here (settingsPath root config) with
    | error fault => simp
    | ok settings =>
      cases hrules : Workspace.ignoreRules tree root with
      | error fault => simp [surveyFiles_of_fault hrules]
      | ok rules =>
        dsimp only
        rw [surveyFiles_of_rules hrules]
        split <;> nofun

theorem exists_of_classify_eq_ok (h : (classify yaml tree here path config).outcome = .ok outcome) :
    ∃ found, (survey yaml tree here path config).value = .ok found ∧ outcome = found.outcome := by
  unfold classify at h
  cases hvalue : (survey yaml tree here path config).value with
  | error failure => simp [hvalue, Except.map] at h
  | ok found =>
    simp only [hvalue, Except.map, Except.ok.injEq] at h
    exact ⟨found, rfl, h.symm⟩

/-! ## Rendering -/

theorem bind_eq_ok_iff {ε α β : Type} {x : Except ε α} {next : α → Except ε β} {value : β} :
    (x >>= next) = .ok value ↔ ∃ first, x = .ok first ∧ next first = .ok value := by
  cases x <;> simp [bind, Except.bind]

theorem bind_eq_error_iff {ε α β : Type} {x : Except ε α} {next : α → Except ε β} {fault : ε} :
    (x >>= next) = .error fault ↔
      x = .error fault ∨ ∃ first, x = .ok first ∧ next first = .error fault := by
  cases x <;> simp [bind, Except.bind]

theorem mapError_eq_ok_iff {ε δ α : Type} {x : Except ε α} {change : ε → δ} {value : α} :
    x.mapError change = .ok value ↔ x = .ok value := by
  cases x <;> simp [Except.mapError]

theorem compose_ne_writing {settings : Settings} {content : Report.Content}
    (fault : WriteFault) : compose engine turn tree settings content ≠ .error (.writing fault) := by
  unfold compose
  cases Report.write engine turn tree settings.templatesDir settings.style content <;> nofun

theorem specReport?_ne_writing {spec : ReportSpec} (fault : WriteFault) :
    specReport? engine turn tree found spec ≠ .error (.writing fault) := by
  unfold specReport? Report.categoryReport?
  dsimp only
  split
  · nofun
  · generalize hcompose : compose engine turn tree found.settings _ = composed
    cases composed with
    | ok text => nofun
    | error failure =>
      rintro h
      obtain rfl : failure = .writing fault := Except.error.inj h
      exact compose_ne_writing fault hcompose

theorem renderSpecs_ne_writing {specs : List ReportSpec} (fault : WriteFault) :
    (renderSpecs engine turn tree found reports specs).value ≠ .error (.writing fault) := by
  induction specs generalizing turn reports with
  | nil =>
    rw [renderSpecs]
    nofun
  | cons spec rest ih =>
    rw [renderSpecs]
    split
    · next failure hfailure =>
      rintro h
      obtain rfl := Except.error.inj h
      exact specReport?_ne_writing fault hfailure
    · exact ih
    · exact ih

theorem render_value_ne_writing (fault : WriteFault) :
    (render engine tree found).value ≠ .error (.writing fault) := by
  have hfixed : fixedReports engine tree found ≠ .error (.writing fault) := by
    intro h
    obtain hcontent | ⟨content, -, h⟩ := bind_eq_error_iff.mp h
    · cases hlayout : layoutContent tree found.root found.settings.layout <;>
        simp [hlayout, Except.mapError] at hcontent
    obtain hlayout | ⟨layout, -, h⟩ := bind_eq_error_iff.mp h
    · exact compose_ne_writing fault hlayout
    split at h
    · cases h
    · obtain hendpoints | ⟨endpoints, -, h⟩ := bind_eq_error_iff.mp h
      · exact compose_ne_writing fault hendpoints
      · cases h
  unfold render
  split
  · next failure hfailure =>
    intro h
    obtain rfl := Except.error.inj h
    exact hfixed hfailure
  · exact renderSpecs_ne_writing fault

/-! ## Runs -/

theorem run_of_render (hsurvey : (survey tools.yaml tree here path config).value = .ok found)
    (hrender : (render tools.engine tree found).value = .ok reports) :
    (run tools tree here path config outputDir dryRun).outcome =
        (deliver tools.disk tree here found reports (outputDirectory found.root outputDir)
          dryRun).outcome ∧
      (run tools tree here path config outputDir dryRun).tree =
        (deliver tools.disk tree here found reports (outputDirectory found.root outputDir)
          dryRun).tree := by
  unfold run
  simp only [hsurvey, hrender, and_self]

/-- A run stops before it delivers anything, or its reports are rendered. -/
theorem run_cases (tools : Tools) (tree : FileTree) (here : Path) (path : Text)
    (config outputDir : Option Text) (dryRun : Bool) :
    (∃ failure, (run tools tree here path config outputDir dryRun).outcome = .error failure ∧
        (∀ fault, failure ≠ .writing fault) ∧
        (run tools tree here path config outputDir dryRun).tree = tree) ∨
      ∃ found reports, (survey tools.yaml tree here path config).value = .ok found ∧
        (render tools.engine tree found).value = .ok reports := by
  cases hsurvey : (survey tools.yaml tree here path config).value with
  | error failure =>
    have hrun : run tools tree here path config outputDir dryRun =
        ⟨tree, (survey tools.yaml tree here path config).log, .error failure⟩ := by
      unfold run
      simp only [hsurvey]
    rw [hrun]
    refine Or.inl ⟨failure, rfl, ?_, rfl⟩
    rintro fault rfl
    exact survey_value_ne_writing fault hsurvey
  | ok found =>
    cases hrender : (render tools.engine tree found).value with
    | error failure =>
      have hrun : run tools tree here path config outputDir dryRun =
          ⟨tree, (survey tools.yaml tree here path config).log ++
            (render tools.engine tree found).log, .error failure⟩ := by
        unfold run
        simp only [hsurvey, hrender]
      rw [hrun]
      refine Or.inl ⟨failure, rfl, ?_, rfl⟩
      rintro fault rfl
      exact render_value_ne_writing fault hrender
    | ok reports => exact Or.inr ⟨found, reports, rfl, hrender⟩

def Survey.delivered (found : Survey) (reports : Entries Text Text) (target : Path)
    (dryRun : Bool) : Outcome :=
  { found.outcome with reports, outputDir := some target, dryRun }

theorem deliver_of_dryRun (disk : Disk) (tree : FileTree) (here : Path) (found : Survey)
    (reports : Entries Text Text) (target : Path) :
    (deliver disk tree here found reports target true).outcome =
      .ok (found.delivered reports target true) ∧
    (deliver disk tree here found reports target true).tree = tree :=
  ⟨rfl, rfl⟩

theorem deliver_of_fault {fault : WriteFault}
    (h : (writeReports disk tree here target reports).fault = some fault) :
    (deliver disk tree here found reports target false).outcome = .error (.writing fault) := by
  unfold deliver
  simp [h]

theorem deliver_of_written (h : (writeReports disk tree here target reports).fault = none) :
    (deliver disk tree here found reports target false).outcome =
      .ok (found.delivered reports target false) := by
  unfold deliver
  simp [h, Survey.delivered]

theorem deliver_tree (disk : Disk) (tree : FileTree) (here : Path) (found : Survey)
    (reports : Entries Text Text) (target : Path) :
    (deliver disk tree here found reports target false).tree =
      (writeReports disk tree here target reports).tree := by
  unfold deliver
  cases hfault : (writeReports disk tree here target reports).fault <;> simp [hfault]

/-- A run that succeeds reports on its survey and holds all reports rendered from it. -/
theorem exists_of_run_eq_ok
    (h : (run tools tree here path config outputDir dryRun).outcome = .ok outcome) :
    ∃ found reports, (survey tools.yaml tree here path config).value = .ok found ∧
      (render tools.engine tree found).value = .ok reports ∧
      outcome = found.delivered reports (outputDirectory found.root outputDir) dryRun := by
  obtain ⟨failure, hfailure, -, -⟩ | ⟨found, reports, hsurvey, hrender⟩ :=
    run_cases tools tree here path config outputDir dryRun
  · cases hfailure.symm.trans h
  refine ⟨found, reports, hsurvey, hrender, ?_⟩
  rw [(run_of_render hsurvey hrender).1] at h
  cases dryRun with
  | true => exact (Except.ok.inj ((deliver_of_dryRun ..).1.symm.trans h)).symm
  | false =>
    cases hfault : (writeReports tools.disk tree here (outputDirectory found.root outputDir)
        reports).fault with
    | some fault => cases (deliver_of_fault hfault).symm.trans h
    | none => exact (Except.ok.inj ((deliver_of_written hfault).symm.trans h)).symm

end SourceAtlas.Overview
