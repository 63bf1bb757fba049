import SourceAtlas.Proofs.Markdown.Lint
import SourceAtlas.Proofs.Overview.Rewriting
import SourceAtlas.Proofs.Settings.Reload
import SourceAtlas.Proofs.Workspace.Unseen

/-!
# Repeated runs

A run writes into the tree that it reads. When it keeps what it reads apart from what it writes, a
second run finds the same settings, rules, sources and templates. If the engine then makes the same of
the templates, it renders the same reports, and writing them again changes nothing. A path to the
templates that goes through an output directory that does not exist yet is enough to break this: the
first run makes the directory, and the second one finds the templates.
-/

namespace SourceAtlas.Overview

open List

open FileTree Workspace

variable {tools again : Tools} {engine later : Report.Engine} {disk : Disk} {yaml : YamlReader}
  {tree after : FileTree} {here root : Path} {path : Text} {config : Option Text} {found : Survey}
  {outcome : Outcome} {reports : Entries Text Text}

/-! ## Rendering -/

def templateNames : List String :=
  ["project_structure.md.j2", "api_endpoints.md.j2", "category_report.md.j2"]

theorem isEntryName_of_mem_templateNames {name : String} (h : name ∈ templateNames) :
    IsEntryName name.toList := by
  have hall : ∀ name ∈ templateNames, IsEntryName name.toList := by decide
  exact hall name h

theorem templateName_mem (content : Report.Content) : content.templateName ∈ templateNames := by
  cases content with
  | layout => exact mem_cons_self
  | endpoints => exact mem_cons_of_mem _ mem_cons_self
  | category => exact mem_cons_of_mem _ (mem_cons_of_mem _ mem_cons_self)

theorem template?_congr {directory : Path} {name : String}
    (h : (after.node? directory (.ofText name.toList)).map label =
      (tree.node? directory (.ofText name.toList)).map label) :
    Report.template? after directory name = Report.template? tree directory name := by
  unfold Report.template?
  obtain hsame | ⟨entries, others, hafter, hbefore⟩ := eq_or_directory_of_label_eq h
  · rw [hsame]
  · rw [hafter, hbefore]

/-- What a second engine makes of the user's templates in another state is what the first made of
them. -/
def SameTexts (engine later : Report.Engine) (tree after : FileTree) (settings : Settings) : Prop :=
  ∀ directory, settings.templatesDir = some directory → ∀ (content : Report.Content) (template : Text),
    Report.template? tree directory content.templateName = .ok (some template) → ∀ turn,
      later turn after directory template settings.style content =
        engine turn tree directory template settings.style content

/-- Whether the user's templates are in two states the same. -/
def SameTemplates (tree after : FileTree) (settings : Settings) : Prop :=
  ∀ directory, settings.templatesDir = some directory → ∀ name ∈ templateNames,
    Report.template? after directory name = Report.template? tree directory name

theorem compose_congr {settings : Settings} (htexts : SameTexts engine later tree after settings)
    (htemplates : SameTemplates tree after settings) (turn : Nat) (content : Report.Content) :
    compose later turn after settings content = compose engine turn tree settings content := by
  unfold compose Report.write
  cases hdirectory : settings.templatesDir with
  | none => rfl
  | some directory =>
    dsimp only
    rw [htemplates directory hdirectory _ (templateName_mem content)]
    cases htemplate : Report.template? tree directory content.templateName with
    | error fault => rfl
    | ok template =>
      cases template with
      | none => rfl
      | some template =>
        dsimp only
        rw [htexts directory hdirectory content template htemplate turn]

theorem renderSpecs_congr
    (h : ∀ turn, compose later turn after found.settings = compose engine turn tree found.settings)
    (turn : Nat) (reports : Entries Text Text) (specs : List ReportSpec) :
    renderSpecs later turn after found reports specs =
      renderSpecs engine turn tree found reports specs := by
  induction specs generalizing turn reports with
  | nil => rfl
  | cons spec specs ih =>
    have hspec : specReport? later turn after found spec = specReport? engine turn tree found spec := by
      unfold specReport?
      rw [h turn]
    rw [renderSpecs, renderSpecs, hspec]
    simp only [ih]

theorem render_congr
    (h : ∀ turn, compose later turn after found.settings = compose engine turn tree found.settings)
    (hlayout : layoutContent after found.root found.settings.layout =
      layoutContent tree found.root found.settings.layout) :
    render later after found = render engine tree found := by
  have hfixed : fixedReports later after found = fixedReports engine tree found := by
    unfold fixedReports
    dsimp only
    rw [hlayout, h 0, h 1]
  unfold render
  rw [hfixed]
  simp only [renderSpecs_congr h]

theorem render_ne_nil (h : (render engine tree found).value = .ok reports) : reports ≠ [] := by
  obtain ⟨content, layout, endpoints, -, -, -, -, rfl⟩ := render_value_eq_ok_iff.mp h
  intro hnil
  have hlayout := congrArg (lookup layoutFile) hnil
  rw [Entries.ofPairs_append, ofPairs_standingReports, Entries.lookup_foldl_put] at hlayout
  unfold Survey.standingReports at hlayout
  rw [lookup_cons_self] at hlayout
  simp at hlayout

/-! ## Surveying again -/

theorem outputDirectory_none (root : Path) :
    outputDirectory root none = ⟨root.absolute, outputPlace root⟩ := by
  have hname : Path.ofText overviewDirectory = ⟨false, [overviewDirectory]⟩ := by decide
  unfold outputDirectory Path.join outputPlace
  rw [hname]
  rfl

/-- What keeps the paths that a run reads apart from those that it writes. -/
structure KeepsApart (tree : FileTree) (here : Path) (config : Option Text) (found : Survey)
    (reports : Entries Text Text) : Prop where
  /-- The settings are not in the output directory, nor is the directory they are looked for in. -/
  settings : ∀ place node,
    tree.spot here (tree.resolve here (settingsPath found.root config)) = .ok (.node place node) →
      ¬ outputPlace found.root <+: place
  /-- No template is in the output directory or reached through a part of it that is not there. -/
  templates : ∀ directory, found.settings.templatesDir = some directory → ∀ name ∈ templateNames,
    Avoids tree (outputPlace found.root) maxLinks [] (directory.join (.ofText name.toList)).parts
  /-- No link leads there either. -/
  links : LinksAvoid tree (outputPlace found.root)
  /-- All reports are written into the output directory. -/
  reports : ∀ report ∈ reports, ∃ name rest,
    (tree.resolve here (reportFile (outputDirectory found.root none) report)).parts =
      outputPlace found.root ++ name :: rest

theorem scanned_again (h : ChangedOutput root tree after)
    (hlinks : LinksAvoid tree (outputPlace root)) (hnamed : tree.Named) (rules : List IgnoreRule) :
    scanned after root rules = scanned tree root rules := by
  unfold scanned
  rw [h.wantedReadings_eq hlinks hnamed]

theorem survey_again (h : ChangedOutput found.root tree after)
    (hlinks : LinksAvoid tree (outputPlace found.root))
    (hsettings : ∀ place node,
      tree.spot here (tree.resolve here (settingsPath found.root config)) = .ok (.node place node) →
        ¬ outputPlace found.root <+: place)
    (hnamed : tree.Named) (hsurvey : (survey yaml tree here path config).value = .ok found) :
    (survey yaml after here path config).value = .ok found := by
  obtain ⟨root, settings, rules, classification, hroot, hload, hrules, hclassified, rfl⟩ :=
    survey_value_eq_ok_iff.mp hsurvey
  have hscanned : scanned after root rules = scanned tree root rules :=
    scanned_again h hlinks hnamed rules
  refine survey_value_eq_ok_iff.mpr ⟨root, settings, rules, classification, ?_, ?_, ?_, ?_, ?_⟩
  · obtain ⟨hresolve, hdirectory⟩ := resolveRoot_eq_ok_iff.mp hroot
    exact resolveRoot_eq_ok_iff.mpr ⟨hresolve.trans (h.within.resolve_eq _ _).symm,
      isDirectoryAt_of_keeps hdirectory h.within.keeps⟩
  · exact Settings.load_of_within h.within hlinks hsettings hload
  · exact (h.ignoreRules_eq hlinks).trans hrules
  · rw [hscanned]
    exact hclassified
  · unfold surveyOf
    rw [hscanned]

theorem layoutContent_again (h : ChangedOutput root tree after)
    (hlinks : LinksAvoid tree (outputPlace root)) (hnamed : tree.Named)
    (layout : Option LayoutSettings) :
    layoutContent after root layout = layoutContent tree root layout := by
  unfold layoutContent shownFiles
  simp only [h.ignoreRules_eq hlinks, h.files_eq hlinks hnamed]

theorem sameTemplates_again (h : ChangedOutput found.root tree after)
    (hapart : KeepsApart tree here config found reports) : SameTemplates tree after found.settings :=
  fun directory hdirectory name hname =>
    template?_congr (h.within.label_eq (hapart.templates directory hdirectory name hname))

/-! ## Running again -/

theorem eq_of_leads_of_keeps {names stop : List Text} {entries : List (Text × FileTree)}
    (hway : Leads tree maxLinks [] names (.node stop (.directory entries)))
    (hkeeps : Keeps tree after) (hview : after.view names = some .directory)
    (hup : "..".toList ∉ names) : stop = names := by
  obtain ⟨others, hothers⟩ :=
    view_eq_directory_iff.mp (hkeeps.directory (view_of_at? hway.at?_eq))
  obtain ⟨inner, hinner⟩ := view_eq_directory_iff.mp hview
  have hsame := (locate_of_leads (hway.of_keeps hkeeps hothers nofun)).symm.trans
    (locate_of_leads (leads_self hinner nofun hup maxLinks))
  exact (Spot.node.inj (Except.ok.inj hsame)).1

/-- Reports that were written to the output directory changed nothing else. -/
theorem changedOutput_of_written (hordered : tree.Ordered)
    (hroot : resolveRoot tree here path = .ok root) (hne : reports ≠ [])
    (hwritten : (writeReports disk tree here (outputDirectory root none) reports).fault = none)
    (hinside : ∀ report ∈ reports, ∃ name rest,
      (tree.resolve here (reportFile (outputDirectory root none) report)).parts =
        outputPlace root ++ name :: rest) :
    ChangedOutput root tree (writeReports disk tree here (outputDirectory root none) reports).tree := by
  obtain ⟨hresolve, hdirectory⟩ := resolveRoot_eq_ok_iff.mp hroot
  have habsolute : root.absolute = true := congrArg Path.absolute hresolve
  have hup : "..".toList ∉ root.parts := by
    rw [hresolve]
    exact up_notMem_resolveNames not_mem_nil
  obtain ⟨stop, entries, hway⟩ := isDirectoryAt_iff.mp hdirectory
  have hroot : (here.join root).parts = root.parts := by
    unfold Path.join
    rw [if_pos habsolute]
  have hparts : (here.join (outputDirectory root none)).parts =
      root.parts ++ [overviewDirectory] := by
    rw [outputDirectory_none]
    unfold Path.join
    rw [if_pos habsolute]
    rfl
  rw [hroot] at hway
  have hne' : (outputDirectory root none).parts ≠ [] := by
    rw [outputDirectory_none]
    exact append_ne_nil_of_right_ne_nil _ (cons_ne_nil _ _)
  have hgrown := grown_writeReports hwritten
  have hmade : ∀ place, (writeReports disk tree here (outputDirectory root none) reports).tree.view
      place = some .directory →
        tree.view place = some .directory ∨ place = stop ++ [overviewDirectory] :=
    fun place => view_directory_writeReports hparts hne' hway
  have hfiles := hasFile_of_written hwritten
  have hlast := ordered_writeReports hordered disk here (outputDirectory root none) reports
  generalize (writeReports disk tree here (outputDirectory root none) reports).tree = after
    at hgrown hmade hfiles hlast ⊢
  -- some report stands below the output directory, so there are directories on the way to it
  obtain ⟨report, hreport⟩ := exists_mem_of_ne_nil reports hne
  obtain ⟨-, place, content, hspot⟩ := hfiles report hreport
  obtain ⟨name, rest, hplace⟩ := hinside report hreport
  rw [← hgrown.resolve_eq, resolve_of_spot hspot] at hplace
  have hfile : after.at? (outputPlace root ++ name :: rest) = some (.file content) := by
    rw [← hplace]
    exact (leads_of_locate hspot).at?_eq
  have houtput := view_of_at?_append hfile (cons_ne_nil name rest)
  have hworkspace : after.view root.parts = some .directory := by
    unfold outputPlace at hfile
    rw [append_assoc] at hfile
    exact view_of_at?_append hfile (append_ne_nil_of_left_ne_nil (cons_ne_nil _ _) _)
  obtain rfl := eq_of_leads_of_keeps hway hgrown.keeps hworkspace hup
  refine ⟨habsolute, hup, view_of_at? hway.at?_eq, houtput, hgrown.within hmade ?_, hordered, hlast⟩
  intro file hfile
  obtain ⟨report, hreport, rfl⟩ := mem_map.mp hfile
  obtain ⟨name, rest, hreported⟩ := hinside report hreport
  rw [hreported]
  exact prefix_append ..

theorem run_of_written (hsurvey : (survey tools.yaml tree here path config).value = .ok found)
    (hrender : (render tools.engine tree found).value = .ok reports)
    (hwritten : (writeReports tools.disk tree here (outputDirectory found.root none)
      reports).fault = none) :
    (run tools tree here path config none false).outcome =
        .ok (found.delivered reports (outputDirectory found.root none) false) ∧
      (run tools tree here path config none false).tree =
        (writeReports tools.disk tree here (outputDirectory found.root none) reports).tree := by
  obtain ⟨houtcome, htree⟩ := run_of_render hsurvey hrender
  exact ⟨houtcome.trans (deliver_of_written hwritten), htree.trans (deliver_tree ..)⟩

/-- In the state before a run and in the state after it, trying again without writing gives the same
reports and changes nothing. In the state after it, running again gives the same outcome and leads to
the same state. A second run has an engine and a disk of its own: the engine must make the same of the
templates, and the disk must let the reports be written. -/
theorem run_again {state : FileTree} (hordered : tree.Ordered) (hnamed : tree.Named)
    (hsurvey : (survey tools.yaml tree here path config).value = .ok found)
    (hrun : (run tools tree here path config none false).outcome = .ok outcome)
    (hapart : KeepsApart tree here config found outcome.reports)
    (hstate : state = tree ∨ state = (run tools tree here path config none false).tree)
    (hyaml : again.yaml = tools.yaml)
    (htexts : SameTexts tools.engine again.engine tree state found.settings) :
    (run again state here path config none true).outcome = .ok { outcome with dryRun := true } ∧
      (run again state here path config none true).tree = state ∧
      (state = (run tools tree here path config none false).tree →
        (∀ report ∈ outcome.reports, again.disk.stops report.1 = none) →
          (run again state here path config none false).outcome = .ok outcome ∧
          (run again state here path config none false).tree = state) := by
  obtain ⟨other, reports, hother, hrender, rfl⟩ := exists_of_run_eq_ok hrun
  obtain rfl := Except.ok.inj (hother.symm.trans hsurvey)
  obtain ⟨root, settings, rules, classification, hroot, -, -, -, hfound⟩ :=
    survey_value_eq_ok_iff.mp hsurvey
  obtain rfl : other.root = root := congrArg Survey.root hfound
  have hne := render_ne_nil hrender
  have hwritten : (writeReports tools.disk tree here (outputDirectory other.root none)
      reports).fault = none := by
    cases hfault : (writeReports tools.disk tree here (outputDirectory other.root none)
        reports).fault with
    | none => rfl
    | some fault =>
      cases (deliver_of_fault hfault).symm.trans ((run_of_render hsurvey hrender).1.symm.trans hrun)
  have hchanged := changedOutput_of_written hordered hroot hne hwritten hapart.reports
  rw [(run_of_written hsurvey hrender hwritten).2] at hstate ⊢
  -- in both states the survey and the reports are those of the tree before the run
  obtain ⟨hsame, htemplates, hlayout⟩ :
      (survey again.yaml state here path config).value = .ok other ∧
        SameTemplates tree state other.settings ∧
        layoutContent state other.root other.settings.layout =
          layoutContent tree other.root other.settings.layout := by
    rw [hyaml]
    obtain rfl | rfl := hstate
    · exact ⟨hsurvey, fun _ _ _ _ => rfl, rfl⟩
    · exact ⟨survey_again hchanged hapart.links hapart.settings hnamed hsurvey,
        sameTemplates_again hchanged hapart, layoutContent_again hchanged hapart.links hnamed _⟩
  have hrendered : (render again.engine state other).value = .ok reports := by
    rw [render_congr (fun turn => funext (compose_congr htexts htemplates turn)) hlayout, hrender]
  obtain ⟨hdry, hdryTree⟩ := run_of_render hsame hrendered
  refine ⟨hdry.trans (deliver_of_dryRun ..).1, hdryTree.trans (deliver_of_dryRun ..).2, ?_⟩
  rintro rfl hdisk
  obtain ⟨hagain, htree⟩ := writeReports_again hordered hne hwritten hdisk
  obtain ⟨houtcome, hlast⟩ := run_of_written hsame hrendered hagain
  exact ⟨houtcome, hlast.trans htree⟩

/-! ## Trees without links

When there are no links it is enough to look at the paths themselves.
-/

theorem exists_resolve_report {report : Text × Text} (h : tree.NoLinks)
    (habsolute : root.absolute = true) (hup : "..".toList ∉ root.parts)
    (hname : IsEntryName report.1) : ∃ name rest,
      (tree.resolve here (reportFile (outputDirectory root none) report)).parts =
        outputPlace root ++ name :: rest := by
  have hparts : (here.join (reportFile (outputDirectory root none) report)).parts =
      outputPlace root ++ [report.1] := by
    unfold reportFile
    rw [outputDirectory_none, ofText_of_isEntryName hname]
    unfold Path.join
    simp [habsolute]
  have hupward : "..".toList ∉ outputPlace root ++ [report.1] := by
    unfold outputPlace
    simp only [mem_append, mem_singleton, not_or]
    exact ⟨⟨hup, by decide⟩, Ne.symm hname.notUp⟩
  refine ⟨report.1, [], ?_⟩
  unfold resolve
  rw [hparts]
  exact h.resolveNames_eq hupward

/-- Plain names keep reports apart, and templates are kept apart when the path of their directory does
not go up or that directory exists. -/
theorem keepsApart_of_noLinks (h : tree.NoLinks)
    (hroot : resolveRoot tree here path = .ok found.root)
    (hsettings : ∀ place node,
      tree.spot here (tree.resolve here (settingsPath found.root config)) = .ok (.node place node) →
        ¬ outputPlace found.root <+: place)
    (htemplates : ∀ directory, found.settings.templatesDir = some directory →
      "..".toList ∉ directory.parts ∧ ¬ outputPlace found.root <+: directory.parts ∨
        ∃ stop entries, Leads tree maxLinks [] directory.parts (.node stop (.directory entries)) ∧
          ¬ outputPlace found.root <+: stop)
    (hreports : ∀ report ∈ reports, IsEntryName report.1) :
    KeepsApart tree here config found reports := by
  obtain ⟨hresolve, -⟩ := resolveRoot_eq_ok_iff.mp hroot
  refine ⟨hsettings, fun directory hdirectory name hname => ?_, h.linksAvoid _, fun report hreport => ?_⟩
  · have hentry := isEntryName_of_mem_templateNames hname
    have hother : ∀ name ∈ templateNames, overviewDirectory ≠ name.toList := by decide
    -- no template has the name of output directories, so its directory decides
    have hclear : ∀ stop, ¬ outputPlace found.root <+: stop →
        ¬ outputPlace found.root <+: stop ++ [name.toList] := by
      intro stop hstop hinside
      obtain hlast | habove := prefix_concat_iff.mp hinside
      · exact hother name hname (append_inj_right' hlast rfl |> singleton_inj.mp)
      · exact hstop habove
    rw [ofText_of_isEntryName hentry, parts_join rfl]
    obtain ⟨hup, houtside⟩ | ⟨stop, entries, hway, houtside⟩ := htemplates directory hdirectory
    · refine h.avoids ?_ (hclear _ houtside)
      rw [mem_append, mem_singleton, not_or]
      exact ⟨hup, Ne.symm hentry.notUp⟩
    · refine hway.avoids_append fun left => h.avoids ?_ (hclear stop houtside)
      exact mem_singleton.not.mpr (Ne.symm hentry.notUp)
  · refine exists_resolve_report h (congrArg Path.absolute hresolve) ?_ (hreports report hreport)
    rw [hresolve]
    exact up_notMem_resolveNames not_mem_nil

/-! ## A detour through the output directory

The settings name the directory of the templates by a path that goes into the output directory and up
again.
-/

section Detour

def detourTemplates : Path :=
  ⟨true, [overviewDirectory, "..".toList, "templates".toList]⟩

def detourSettings : Settings :=
  { source := settingsFile
    layout := none
    endpoints := none
    categories := [scriptRule]
    reports := [⟨"R.md".toList, none, ["A".toList]⟩]
    style := .standard
    templatesDir := some detourTemplates }

def detourConfig : Text :=
  ("\x7b\x22categories\x22:[\x7b\x22name\x22:\x22A\x22,\x22extensions\x22:\x22.gd\x22\x7d]," ++
    "\x22generatedFiles\x22:[\x7b\x22name\x22:\x22R.md\x22,\x22includedCategories\x22:\x22A\x22\x7d]," ++
    "\x22markdown\x22:\x7b\x22templatesDir\x22:" ++
    "\x22PROJECT_OVERVIEW/../templates\x22\x7d\x7d").toList

/-- A workspace with these settings and a template of one letter. -/
def detour : FileTree :=
  .directory [("ai-scan-config.json".toList, .file (Utf8.encode detourConfig)),
    ("templates".toList,
      .directory [("project_structure.md.j2".toList, .file (Utf8.encode ['x']))])]

/-- Tools with an engine that writes out the template as it is. -/
def plainTools : Tools :=
  ⟨fun _ => .endless, fun _ _ _ template _ _ => .ok template, .sound⟩

theorem ignoreRules_detour : ignoreRules detour top = .ok [] :=
  ignoreRules_top rfl

theorem files_detour : files detour top [] =
    ["ai-scan-config.json".toList, "templates/project_structure.md.j2".toList] := by
  have hspot : detour.spot top top = .ok (.node [] detour) := locate_of_leads (.stop rfl)
  rw [files_of_spot rfl hspot]
  rfl

theorem scanned_detour : scanned detour top [] = [] := by
  have hfilter : ["ai-scan-config.json".toList, "templates/project_structure.md.j2".toList].filter
      (fun path => Registry.builtinExtensions.contains (lower (extensionOf path))) = [] := by decide
  unfold scanned wantedReadings
  simp only [Registry.contains_extensions_builtin]
  rw [files_detour, hfilter]
  exact mergeSort_nil

def detourFound : Survey :=
  surveyOf detour top [] detourSettings []

theorem survey_detour (yaml : YamlReader) :
    (survey yaml detour top ".".toList none).value = .ok detourFound := by
  refine survey_value_eq_ok_iff.mpr ⟨top, detourSettings, [], [], resolveRoot_top,
    load_top yaml rfl (by decide +kernel), ignoreRules_detour, ?_, rfl⟩
  rw [scanned_detour]
  rfl

theorem specReport?_detour (turn : Nat) (spec : ReportSpec) :
    specReport? engine turn tree detourFound spec = .ok none := by
  have hfiles : detourFound.files = [] := by
    unfold detourFound surveyOf
    rw [scanned_detour]
    rfl
  refine (Report.categoryReport?_eq_none_iff _ spec _ _).mpr fun file hfile => ?_
  rw [hfiles] at hfile
  exact absurd hfile not_mem_nil

theorem render_detourFound {content : Report.Content} {layout : Text}
    (hcontent : layoutContent tree top none = .ok content)
    (hlayout : compose engine 0 tree detourSettings content = .ok layout) :
    (render engine tree detourFound).value = .ok [(layoutFile, layout)] := by
  have hbody : ∀ entry, detourFound.body? engine tree entry = none :=
    fun entry => body?_of_specReport? (specReport?_detour entry.2 entry.1)
  have hcategory : detourFound.categoryReports engine tree (detourFound.settings.reports.zipIdx 2) =
      [] := filterMap_eq_nil_iff.mpr fun entry _ => by rw [hbody]; rfl
  refine render_value_eq_ok_iff.mpr ⟨content, layout, [], hcontent, hlayout, nofun, ?_, ?_⟩
  · intro entry _
    rw [hbody, specReport?_detour]
  · rw [hcategory]
    rfl

def detourContent : Report.Content :=
  Report.layoutContent none (renderOutline (displayName top)
    ["ai-scan-config.json".toList, "templates/project_structure.md.j2".toList])

theorem layoutContent_detour : layoutContent detour top none = .ok detourContent := by
  have hshown : ["ai-scan-config.json".toList, "templates/project_structure.md.j2".toList].filter
      (isShown none) =
        ["ai-scan-config.json".toList, "templates/project_structure.md.j2".toList] := by decide
  unfold layoutContent shownFiles
  rw [ignoreRules_detour]
  simp only [Except.map, files_detour, hshown]
  rfl

/-- Where the path of the templates leads nowhere the report is the built-in one. -/
theorem compose_detour : compose engine 0 detour detourSettings detourContent =
    .ok (detourContent.builtin .standard) := by
  have hlocate : detour.locate maxLinks [] [overviewDirectory, "..".toList, "templates".toList,
      "project_structure.md.j2".toList] = .error .notFound := locate_free rfl _ (by decide) rfl
  have hspot : detour.spot detourTemplates (.ofText "project_structure.md.j2".toList) =
      .error .notFound := hlocate
  have htemplate : Report.template? detour detourTemplates detourContent.templateName = .ok none := by
    change Report.template? detour detourTemplates "project_structure.md.j2" = _
    unfold Report.template? node?
    rw [hspot]
  have hdirectory : detourSettings.templatesDir = some detourTemplates := rfl
  unfold compose Report.write
  rw [hdirectory]
  dsimp only
  rw [htemplate]
  rfl

def detourLayout : Text :=
  detourContent.builtin .standard

theorem render_detour : (render engine detour detourFound).value = .ok [(layoutFile, detourLayout)] :=
  render_detourFound layoutContent_detour compose_detour

def detourAfter : FileTree :=
  (detour.put [overviewDirectory] empty).put [overviewDirectory, layoutFile]
    (.file (Utf8.encode detourLayout))

theorem writeReports_detour :
    (writeReports .sound detour top (outputDirectory top none) [(layoutFile, detourLayout)]).fault =
      none ∧
    (writeReports .sound detour top (outputDirectory top none) [(layoutFile, detourLayout)]).tree =
      detourAfter := by
  have houtput : outputDirectory top none = strayOutput := outputDirectory_none top
  have hfirst : writeReport .sound detour top strayOutput (layoutFile, detourLayout) =
      ⟨detourAfter, none⟩ := writeReport_top rfl detourLayout
  obtain ⟨hfault, htree⟩ := writeReports_cons_of_written (layoutFile, detourLayout) []
    (congrArg Change.fault hfirst)
  rw [houtput]
  exact ⟨hfault, htree.trans (congrArg Change.tree hfirst)⟩

theorem eachDirectory_detour {property : List (Text × FileTree) → Prop}
    (htop : property detour.entries)
    (htemplates : property [("project_structure.md.j2".toList, .file (Utf8.encode ['x']))]) :
    detour.EachDirectory property := by
  refine eachDirectory_of_mem htop (forall_mem_cons.mpr ⟨eachDirectory_file _, ?_⟩)
  refine forall_mem_singleton.mpr (eachDirectory_of_mem htemplates ?_)
  exact forall_mem_singleton.mpr (eachDirectory_file _)

theorem ordered_detour : detour.Ordered :=
  eachDirectory_detour (by decide) (by decide)

theorem named_detour : detour.Named :=
  eachDirectory_detour (by decide) (by decide)

theorem noLinks_detour : detour.NoLinks := by
  refine noLinks_directory (forall_mem_cons.mpr ⟨noLinks_file _, ?_⟩)
  refine forall_mem_singleton.mpr (noLinks_directory (forall_mem_singleton.mpr ?_))
  exact noLinks_file _

theorem settings_top (tree : FileTree) (place : List Text) (node : FileTree)
    (h : tree.spot top (tree.resolve top (settingsPath top none)) = .ok (.node place node)) :
    ¬ outputPlace top <+: place := by
  have hresolve : tree.resolve top (settingsPath top none) = top := by
    unfold resolve
    rw [show (top.join (settingsPath top none)).parts = [] from rfl, resolveNames]
    rfl
  have htop : tree.spot top top = .ok (.node [] tree) := locate_of_leads (.stop (at?_nil tree))
  rw [hresolve, htop] at h
  obtain ⟨rfl, -⟩ := Spot.node.inj (Except.ok.inj h)
  exact prefix_nil.not.mpr (cons_ne_nil _ _)

theorem changedOutput_detour : ChangedOutput top detour detourAfter := by
  obtain ⟨hwritten, htree⟩ := writeReports_detour
  rw [← htree]
  refine changedOutput_of_written ordered_detour resolveRoot_top (cons_ne_nil _ _) hwritten ?_
  exact forall_mem_singleton.mpr
    (exists_resolve_report noLinks_detour rfl not_mem_nil (by decide))

theorem noLinks_detourAfter : detourAfter.NoLinks :=
  fun place target hlink => noLinks_detour place target (changedOutput_detour.within.link hlink)

theorem survey_detourAfter (yaml : YamlReader) :
    (survey yaml detourAfter top ".".toList none).value = .ok detourFound :=
  survey_again changedOutput_detour (noLinks_detour.linksAvoid _) (settings_top detour) named_detour
    (survey_detour yaml)

theorem view_templates : detourAfter.view ["templates".toList] = some .directory :=
  changedOutput_detour.within.outside (by decide)

theorem leads_templates {names : List Text} {spot : Spot}
    (h : Leads detourAfter maxLinks ["templates".toList] names spot) :
    Leads detourAfter maxLinks [] (detourTemplates.parts ++ names) spot := by
  have hworkspace : detourAfter.view [] = some .directory := changedOutput_detour.workspace_after
  have houtput : detourAfter.view [overviewDirectory] = some .directory := changedOutput_detour.output
  exact .enter hworkspace (by decide) houtput nofun
    (.up houtput (.enter hworkspace (by decide) view_templates nofun h))

/-- Once the output directory is there the path leads to the template of the user. -/
theorem compose_detourAfter : compose plainTools.engine 0 detourAfter detourSettings detourContent =
    .ok "x\n".toList := by
  have hview : detourAfter.view ["templates".toList, "project_structure.md.j2".toList] =
      some (.file (Utf8.encode ['x'])) := changedOutput_detour.within.outside (by decide)
  have hspot : detourAfter.spot detourTemplates (.ofText "project_structure.md.j2".toList) =
      .ok (.node ["templates".toList, "project_structure.md.j2".toList]
        (.file (Utf8.encode ['x']))) :=
    locate_of_leads (leads_templates (.enter view_templates (by decide) hview nofun
      (.stop (view_eq_file_iff.mp hview))))
  have hdecode : Utf8.decode (Utf8.encode ['x']) = .ok ['x'] :=
    Utf8.decode_eq_ok_iff.mpr ⟨['x'], rfl, rfl⟩
  have htemplate : Report.template? detourAfter detourTemplates detourContent.templateName =
      .ok (some ['x']) := by
    change Report.template? detourAfter detourTemplates "project_structure.md.j2" = _
    unfold Report.template?
    simp only [node?_of_spot hspot, hdecode]
  have hlint : Markdown.lint ['x'] = "x\n".toList := by decide +kernel
  have hdirectory : detourSettings.templatesDir = some detourTemplates := rfl
  unfold compose Report.write
  rw [hdirectory]
  dsimp only
  rw [htemplate]
  exact congrArg Except.ok hlint

theorem render_detourAfter : (render plainTools.engine detourAfter detourFound).value =
    .ok [(layoutFile, "x\n".toList)] := by
  refine render_detourFound ?_ compose_detourAfter
  rw [layoutContent_again changedOutput_detour (noLinks_detour.linksAvoid _) named_detour,
    layoutContent_detour]

theorem fault_detourAfter : (writeReports .sound detourAfter top (outputDirectory top none)
    [(layoutFile, "x\n".toList)]).fault = none := by
  obtain ⟨hwritten, htree⟩ := writeReports_detour
  have hfile := hasFile_of_written hwritten _ mem_cons_self
  rw [htree] at hfile
  obtain ⟨entries, hentries⟩ := view_eq_directory_iff.mp changedOutput_detour.output
  exact fault_writeReports_of_hasFile (by decide) (fun _ => isDirectoryAt_iff.mpr
    ⟨outputPlace top, entries, leads_self hentries nofun (by decide) maxLinks⟩)
    (fun _ _ => rfl) (forall_mem_singleton.mpr hfile)

theorem run_detour :
    (run plainTools detour top ".".toList none none false).outcome =
        .ok (detourFound.delivered [(layoutFile, detourLayout)] (outputDirectory top none) false) ∧
      (run plainTools detour top ".".toList none none false).tree = detourAfter := by
  obtain ⟨houtcome, htree⟩ := run_of_written (survey_detour plainTools.yaml) render_detour
    writeReports_detour.1
  exact ⟨houtcome, htree.trans writeReports_detour.2⟩

theorem run_detourAfter : (run plainTools detourAfter top ".".toList none none false).outcome =
    .ok (detourFound.delivered [(layoutFile, "x\n".toList)] (outputDirectory top none) false) :=
  (run_of_written (survey_detourAfter plainTools.yaml) render_detourAfter fault_detourAfter).1

theorem infix_detourLayout : "## Project Structure".toList <:+: detourLayout := by
  have htrim : trimRight "## Project Structure".toList = "## Project Structure".toList := by decide
  have hkept : trimRight "## Project Structure".toList <:+: detourLayout :=
    Markdown.infix_lint mem_cons_self (by decide)
  rwa [htrim] at hkept

theorem resolve_detourTemplates :
    detour.resolve top detourTemplates = ⟨true, ["templates".toList]⟩ := by
  have hnames : (top.join detourTemplates).parts =
      [overviewDirectory, "..".toList, "templates".toList] := rfl
  unfold resolve
  rw [hnames, resolveNames_enter (by decide) (noLinks_detour _), resolveNames_up,
    resolveNames_enter (by decide) (noLinks_detour _), resolveNames]
  rfl

/-- The settings and the templates are outside the output directory and the report has a plain name,
but the second run writes the template of the user, which the first run did not find. -/
theorem run_twice_detour_differs :
    detour.Ordered ∧ detour.Named ∧ detour.NoLinks ∧ detourFound.settings.source = settingsFile ∧
      detourFound.settings.templatesDir = some detourTemplates ∧
      detour.resolve top detourTemplates = ⟨true, ["templates".toList]⟩ ∧
      IsEntryName layoutFile ∧
      ∃ first second,
        (run plainTools detour top ".".toList none none false).outcome = .ok first ∧
        (run plainTools (run plainTools detour top ".".toList none none false).tree top ".".toList none
          none false).outcome = .ok second ∧
        first.reports.map Prod.fst = [layoutFile] ∧ second.reports = [(layoutFile, "x\n".toList)] ∧
        second.reports ≠ first.reports := by
  obtain ⟨hfirst, htree⟩ := run_detour
  have hsecond := run_detourAfter
  have hlayout : detourLayout ≠ "x\n".toList := by
    intro heq
    have hheading := infix_detourLayout
    rw [heq] at hheading
    exact absurd hheading.length_le (by decide)
  rw [← htree] at hsecond
  refine ⟨ordered_detour, named_detour, noLinks_detour, rfl, rfl, resolve_detourTemplates, by decide,
    _, _, hfirst, hsecond, rfl, rfl, ?_⟩
  intro hsame
  exact hlayout (Prod.mk.inj (cons.inj hsame).1).2.symm

/-- After the first run the output directory is there, so the path goes through it and from then on all
runs are the same. -/
theorem run_again_detour :
    detourAfter.Ordered ∧ detourAfter.Named ∧
      (survey plainTools.yaml detourAfter top ".".toList none).value = .ok detourFound ∧
      ∃ outcome last,
        (run plainTools detourAfter top ".".toList none none false).outcome = .ok outcome ∧
        (run plainTools detourAfter top ".".toList none none false).tree = last ∧
        KeepsApart detourAfter top none detourFound outcome.reports ∧
        SameTexts plainTools.engine plainTools.engine detourAfter last detourFound.settings ∧
        (run plainTools last top ".".toList none none true).tree = last ∧
        (run plainTools last top ".".toList none none false).outcome = .ok outcome ∧
        (run plainTools last top ".".toList none none false).tree = last := by
  have hordered : detourAfter.Ordered := changedOutput_detour.ordered_after
  have hnamed : detourAfter.Named :=
    (named_detour.put (by decide) named_empty).put (by decide) (eachDirectory_file _)
  have hsurvey := survey_detourAfter plainTools.yaml
  obtain ⟨entries, hentries⟩ := view_eq_directory_iff.mp view_templates
  obtain ⟨root, settings, rules, classification, hroot, -, -, -, hfound⟩ :=
    survey_value_eq_ok_iff.mp hsurvey
  obtain rfl : detourFound.root = root := congrArg Survey.root hfound
  have hapart : KeepsApart detourAfter top none detourFound [(layoutFile, "x\n".toList)] := by
    refine keepsApart_of_noLinks noLinks_detourAfter hroot (settings_top detourAfter) ?_ ?_
    · rintro directory hdirectory
      obtain rfl : detourTemplates = directory := Option.some.inj hdirectory
      exact Or.inr ⟨["templates".toList], entries, leads_templates (.stop hentries), by decide⟩
    · exact forall_mem_singleton.mpr (by decide)
  have htexts : ∀ last, SameTexts plainTools.engine plainTools.engine detourAfter last
      detourFound.settings := fun _ _ _ _ _ _ _ => rfl
  obtain ⟨-, htried, hagain⟩ :=
    run_again hordered hnamed hsurvey run_detourAfter hapart (Or.inr rfl) rfl (htexts _)
  obtain ⟨houtcome, htree⟩ := hagain rfl fun _ _ => rfl
  exact ⟨hordered, hnamed, hsurvey, _, _, run_detourAfter, rfl, hapart, htexts _, htried, houtcome,
    htree⟩

end Detour

end SourceAtlas.Overview
