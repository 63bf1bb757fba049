import SourceAtlas.Proofs.Overview.Run
import SourceAtlas.Proofs.Parser.Registry
import SourceAtlas.Proofs.Settings.Reload

/-!
# Sources that cannot be read

Such a source is a file that cannot be opened or a link that leads to no file. It goes through the scan
with an empty text. So it is listed among the files without types, unless it is a script: then it counts
as a class named after the file.
-/

namespace SourceAtlas

open List

variable {tree : FileTree} {root : Path} {rules : List IgnoreRule} {path : Text}
  {classification : Entries Text Text} {settings : Settings} {fault : FileFault}

/-! ## The sources of a survey -/

theorem Workspace.readSource_of_error
    (h : tree.read root (root.join (.ofText path)) = .error fault) :
    (readSource tree root path).source = ⟨path, lower (extensionOf path), []⟩ := by
  unfold readSource
  simp only [h]

namespace Overview

theorem mem_scanned_iff {source : Source} :
    source ∈ scanned tree root rules ↔
      ∃ path ∈ Workspace.files tree root rules,
        lower (extensionOf path) ∈ Registry.builtinExtensions ∧
        (Workspace.readSource tree root path).source = source := by
  have hextension : ∀ extension, extension ∈ Registry.builtin.extensions.map lower ↔
      extension ∈ Registry.builtinExtensions := by
    intro extension
    rw [← contains_iff_mem, Registry.contains_extensions_builtin, contains_iff_mem]
  unfold scanned
  simp only [Workspace.mem_wantedReadings_iff, hextension, eq_comm]

/-- The summary of a file is that of the source read under its path. -/
theorem mem_surveyOf_files {file : FileSummary} :
    file ∈ (surveyOf tree root rules settings classification).files ↔
      (Workspace.readSource tree root file.path).source ∈ scanned tree root rules ∧
        withCategory classification
          (Registry.builtin.scan (Workspace.readSource tree root file.path).source).file = file := by
  unfold surveyOf
  rw [Registry.scanAll_fst, map_map, mem_map]
  constructor
  · rintro ⟨source, hsource, rfl⟩
    obtain ⟨path, -, -, rfl⟩ := mem_scanned_iff.mp hsource
    have hpath : (withCategory classification (Registry.builtin.scan
        (Workspace.readSource tree root path).source).file).path = path :=
      (Registry.path_scan_builtin _).trans (Workspace.path_readSource tree root path)
    rw [Function.comp_apply, hpath]
    exact ⟨hsource, rfl⟩
  · rintro ⟨hsource, hfile⟩
    exact ⟨_, hsource, hfile⟩

theorem mem_surveyOf_unparsed :
    path ∈ (surveyOf tree root rules settings classification).unparsed ↔
      (Workspace.readSource tree root path).source ∈ scanned tree root rules ∧
        (Registry.builtin.scan (Workspace.readSource tree root path).source).file.types = [] := by
  refine Registry.mem_scanAll_snd.trans ⟨?_, ?_⟩
  · rintro ⟨source, hsource, rfl, htypes⟩
    obtain ⟨path, -, -, rfl⟩ := mem_scanned_iff.mp hsource
    rw [Workspace.path_readSource]
    exact ⟨hsource, htypes⟩
  · rintro ⟨hsource, htypes⟩
    exact ⟨_, hsource, Workspace.path_readSource tree root path, htypes⟩

/-! ## Unreadable sources -/

/-- A source that is found but cannot be read has a summary with no endpoints. It has no types and
is listed as unparsed exactly if it is no script; a script has one class, without members. -/
theorem unreadable_source_summary {here : Path} {given : Text} {config : Option Text}
    {outcome : Outcome} {parser : Parser} {fault : FileFault}
    (hdone : (∃ yaml, (classify yaml tree here given config).outcome = .ok outcome) ∨
      ∃ tools outputDir dryRun,
        (run tools tree here given config outputDir dryRun).outcome = .ok outcome)
    (hrules : Workspace.ignoreRules tree outcome.root = .ok rules)
    (hfile : path ∈ Workspace.files tree outcome.root rules)
    (hparser : Registry.builtin.parserFor? (extensionOf path) = some parser)
    (hread : tree.read outcome.root (outcome.root.join (.ofText path)) = .error fault) :
    (∃ file ∈ outcome.files, file.path = path) ∧
      (path ∈ outcome.unparsed ↔ lower (extensionOf path) ≠ ".gd".toList) ∧
      ∀ file ∈ outcome.files, file.path = path →
        file.endpoints = [] ∧
        file.types = if lower (extensionOf path) = ".gd".toList then [Script.emptyClass path]
          else [] := by
  -- either way the outcome has the root, the files and the unparsed paths of the survey
  obtain ⟨yaml, found, hsurvey, hroot, hfiles, hunparsed⟩ : ∃ yaml found,
      (survey yaml tree here given config).value = .ok found ∧ outcome.root = found.root ∧
        outcome.files = found.files ∧ outcome.unparsed = found.unparsed := by
    obtain ⟨yaml, hclassify⟩ | ⟨tools, outputDir, dryRun, hrun⟩ := hdone
    · obtain ⟨found, hvalue, rfl⟩ := exists_of_classify_eq_ok hclassify
      exact ⟨yaml, found, hvalue, rfl, rfl, rfl⟩
    · obtain ⟨found, reports, hvalue, -, rfl⟩ := exists_of_run_eq_ok hrun
      exact ⟨tools.yaml, found, hvalue, rfl, rfl, rfl⟩
  obtain ⟨root, settings, others, classification, -, -, hothers, -, rfl⟩ :=
    survey_value_eq_ok_iff.mp hsurvey
  obtain rfl : outcome.root = root := hroot
  obtain rfl : others = rules := Except.ok.inj (hothers.symm.trans hrules)
  rw [hfiles, hunparsed]
  have hextension := Registry.mem_of_parserFor? hparser
  have hsource := Workspace.readSource_of_error hread
  have hscanned :
      (Workspace.readSource tree outcome.root path).source ∈ scanned tree outcome.root others :=
    mem_scanned_iff.mpr ⟨path, hfile, hextension, rfl⟩
  have hscan : (Registry.builtin.scan (Workspace.readSource tree outcome.root path).source).file =
      Registry.emptySummary path (lower (extensionOf path)) := by
    rw [hsource]
    exact Registry.scan_builtin_of_text_eq_nil rfl hextension
  refine ⟨?_, ?_, ?_⟩
  · have hpath : (withCategory classification
        (Registry.emptySummary path (lower (extensionOf path)))).path = path := rfl
    refine ⟨_, mem_surveyOf_files.mpr ?_, hpath⟩
    rw [hpath, hscan]
    exact ⟨hscanned, rfl⟩
  · rw [mem_surveyOf_unparsed, hscan]
    simp [hscanned, Registry.emptySummary]
  · rintro file hmem rfl
    obtain ⟨-, hsummary⟩ := mem_surveyOf_files.mp hmem
    rw [hscan] at hsummary
    exact ⟨congrArg FileSummary.endpoints hsummary.symm, congrArg FileSummary.types hsummary.symm⟩

/-! ## Workspaces at the top of a tree -/

section Top

open FileTree

def top : Path :=
  ⟨true, []⟩

def settingsFile : Path :=
  ⟨true, ["ai-scan-config.json".toList]⟩

variable {entries : List (Text × FileTree)} {content : Bytes} (yaml : YamlReader)

/-- The file is not in YAML, so any reader will do to see what is in it. -/
theorem parse_settingsFile
    (h : (Settings.parse (fun _ => .endless) settingsFile content).toOption = some settings) :
    Settings.parse yaml settingsFile content = .ok settings := by
  rw [Settings.parse_of_isYamlName (by decide) fun _ => .endless]
  generalize Settings.parse _ settingsFile content = parsed at h ⊢
  cases parsed with
  | error fault => cases h
  | ok settings => exact congrArg Except.ok (Option.some.inj h)

theorem isDirectoryAt_top : (FileTree.directory entries).isDirectoryAt top top = true :=
  isDirectoryAt_iff.mpr ⟨[], entries, .stop rfl⟩

theorem resolveRoot_top : Workspace.resolveRoot (.directory entries) top ".".toList = .ok top := by
  have hparts : (top.join (.ofText ".".toList)).parts = [] := by decide
  refine Workspace.resolveRoot_eq_ok_iff.mpr ⟨?_, isDirectoryAt_top⟩
  unfold resolve
  rw [hparts, resolveNames]
  rfl

theorem load_top (hfile : entries.lookup "ai-scan-config.json".toList = some (.file content))
    (h : (Settings.parse (fun _ => .endless) settingsFile content).toOption = some settings) :
    Settings.load yaml (.directory entries) top top = .ok settings := by
  have hnames : Settings.fileNames = "ai-scan-config.json".toList :: Settings.fileNames.tail := rfl
  have hjoin : top.join (.ofText "ai-scan-config.json".toList) = settingsFile := by decide
  have hnode : (FileTree.directory entries).at? ["ai-scan-config.json".toList] =
      some (.file content) := (at?_singleton ..).trans hfile
  have hspot : (FileTree.directory entries).spot top settingsFile =
      .ok (.node ["ai-scan-config.json".toList] (.file content)) :=
    locate_of_leads (.enter rfl (by decide) (view_eq_file_iff.mpr hnode) nofun (.stop hnode))
  have hcandidate : Settings.candidate? (.directory entries) top top =
      some "ai-scan-config.json".toList := by
    unfold Settings.candidate?
    rw [hnames]
    apply find?_cons_of_pos
    rw [hjoin]
    exact isFileAt_of_read (read_of_spot hspot)
  rw [Settings.load_of_candidate isDirectoryAt_top hcandidate, hjoin, Settings.load_of_spot hspot]
  exact parse_settingsFile yaml h

theorem ignoreRules_top (h : entries.lookup ".gitignore".toList = none) :
    Workspace.ignoreRules (.directory entries) top = .ok [] := by
  have hview : (FileTree.directory entries).view [".gitignore".toList] = none := by
    rw [view_cons, h, Option.bind_none]
  have hignore : (FileTree.directory entries).spot top (.ofText ".gitignore".toList) =
      .ok (.vacant [".gitignore".toList]) := locate_of_leads (.free rfl (by decide) hview)
  unfold Workspace.ignoreRules node?
  rw [hignore]

end Top

/-! ## A workspace with stray sources

A C# source cannot be opened, a link under the name of a script leads nowhere, and another one under the
name of a C# source leads to a directory. The settings have one category for scripts and use one name
for two reports.
-/

section Stray

open FileTree

def scriptRule : Rule :=
  { name := "A".toList
    description := none
    includePaths := []
    excludePaths := []
    includeNames := []
    excludeNames := []
    extensions := [".gd".toList] }

/-- A report on scripts below a directory that does not exist. -/
def straySpec (description : Option Text) : ReportSpec :=
  ⟨"out/R.md".toList, description, ["A".toList]⟩

def straySettings : Settings :=
  { source := settingsFile
    layout := none
    endpoints := none
    categories := [scriptRule]
    reports := [straySpec none, straySpec (some "last".toList)]
    style := .standard
    templatesDir := none }

def strayConfig : Text :=
  ("\x7b\x22categories\x22:[\x7b\x22name\x22:\x22A\x22,\x22extensions\x22:\x22.gd\x22\x7d]," ++
    "\x22generatedFiles\x22:[" ++
    "\x7b\x22name\x22:\x22out/R.md\x22,\x22includedCategories\x22:\x22A\x22\x7d," ++
    "\x7b\x22name\x22:\x22out/R.md\x22,\x22includedCategories\x22:\x22A\x22," ++
    "\x22description\x22:\x22last\x22\x7d]\x7d").toList

def strayEntries : List (Text × FileTree) :=
  [("a.cs".toList, .locked .denied),
    ("ai-scan-config.json".toList, .file (Utf8.encode strayConfig)),
    ("b.gd".toList, .link ⟨false, ["missing".toList]⟩), ("c.cs".toList, .link ⟨true, []⟩)]

def stray : FileTree :=
  .directory strayEntries

theorem spot_top : stray.spot top top = .ok (.node [] stray) :=
  locate_of_leads (.stop rfl)

theorem spot_b : stray.spot top ⟨true, ["b.gd".toList]⟩ = .ok (.vacant ["missing".toList]) :=
  locate_of_leads (.follow rfl (by decide) rfl (.free rfl (by decide) rfl))

theorem read_a : stray.read top (top.join (.ofText "a.cs".toList)) =
    .error ⟨.denied, top.join (.ofText "a.cs".toList)⟩ := by
  have hspot : stray.spot top (top.join (.ofText "a.cs".toList)) =
      .ok (.node ["a.cs".toList] (.locked .denied)) :=
    locate_of_leads (.enter rfl (by decide) rfl nofun (.stop rfl))
  unfold FileTree.read
  rw [hspot]

theorem read_b : stray.read top (top.join (.ofText "b.gd".toList)) =
    .error ⟨.notFound, top.join (.ofText "b.gd".toList)⟩ := by
  have hspot : stray.spot top (top.join (.ofText "b.gd".toList)) =
      .ok (.vacant ["missing".toList]) := spot_b
  unfold FileTree.read
  rw [hspot]

theorem ignoreRules_stray : Workspace.ignoreRules stray top = .ok [] :=
  ignoreRules_top rfl

theorem files_stray : Workspace.files stray top [] =
    ["a.cs".toList, "ai-scan-config.json".toList, "b.gd".toList] := by
  have hb : stray.countsAsDirectory ([] ++ ["b.gd".toList]) (.link ⟨false, ["missing".toList]⟩) =
      false := by
    have hspot : stray.spot ⟨true, []⟩ ⟨true, ["b.gd".toList]⟩ = _ := spot_b
    rw [nil_append, countsAsDirectory, isDirectoryAt, node?, hspot]
    rfl
  have hc : stray.countsAsDirectory ([] ++ ["c.cs".toList]) (.link ⟨true, []⟩) = true :=
    isDirectoryAt_iff.mpr ⟨[], stray.entries, .follow rfl (by decide) rfl (.stop rfl)⟩
  unfold Workspace.files
  rw [spot_top]
  change stray.walk [] [] [] (.directory strayEntries) = _
  rw [walk, strayEntries, walkEntries, walkEntries, walkEntries, walkEntries, hb, hc]
  rfl

theorem scanned_stray : scanned stray top [] =
    [⟨"a.cs".toList, ".cs".toList, []⟩, ⟨"b.gd".toList, ".gd".toList, []⟩] := by
  have hcs := Workspace.readSource_of_error read_a
  have hgd := Workspace.readSource_of_error read_b
  have hfilter : ["a.cs".toList, "ai-scan-config.json".toList, "b.gd".toList].filter (fun path =>
      Registry.builtinExtensions.contains (lower (extensionOf path))) =
        ["a.cs".toList, "b.gd".toList] := by decide
  unfold scanned Workspace.wantedReadings
  simp only [Registry.contains_extensions_builtin]
  rw [files_stray, hfilter, map_map, map_cons, map_cons, map_nil,
    Function.comp_apply, Function.comp_apply, hcs, hgd]
  apply mergeSort_of_pairwise
  decide

def strayCategories : Entries Text Text :=
  [("a.cs".toList, []), ("b.gd".toList, "A".toList)]

theorem scanAll_stray : (Registry.builtin.scanAll (scanned stray top [])).1 =
    [Registry.emptySummary "a.cs".toList ".cs".toList,
      Registry.emptySummary "b.gd".toList ".gd".toList] := by
  rw [scanned_stray, Registry.scanAll_fst, map_cons, map_cons, map_nil,
    Registry.scan_builtin_of_text_eq_nil rfl (by decide),
    Registry.scan_builtin_of_text_eq_nil rfl (by decide)]

def strayFound : Survey :=
  surveyOf stray top [] straySettings strayCategories

theorem survey_stray (yaml : YamlReader) :
    (survey yaml stray top ".".toList none).value = .ok strayFound := by
  apply survey_value_eq_ok_iff.mpr
  refine ⟨top, straySettings, [], strayCategories, resolveRoot_top,
    load_top yaml rfl (by decide +kernel), ignoreRules_stray, ?_, rfl⟩
  rw [scanAll_stray]
  rfl

/-- The C# source is listed as unparsed, the script is a class. -/
theorem unreadable_stray_sources :
    ∃ outcome, (classify (fun _ => .endless) stray top ".".toList none).outcome = .ok outcome ∧
      Workspace.ignoreRules stray outcome.root = .ok [] ∧
      "a.cs".toList ∈ Workspace.files stray outcome.root [] ∧
      "c.cs".toList ∉ Workspace.files stray outcome.root [] ∧
      "a.cs".toList ∈ outcome.unparsed ∧ "b.gd".toList ∉ outcome.unparsed ∧
      ∃ file ∈ outcome.files, file.path = "b.gd".toList ∧
        file.types = [Script.emptyClass "b.gd".toList] := by
  have hdone : (classify (fun _ => .endless) stray top ".".toList none).outcome =
      .ok strayFound.outcome := congrArg (Except.map Survey.outcome) (survey_stray _)
  have hmem : ∀ {name : Text}, name ∈ Workspace.files stray top [] ↔
      name ∈ ["a.cs".toList, "ai-scan-config.json".toList, "b.gd".toList] := by
    rw [files_stray]
  have hcs := unreadable_source_summary (Or.inl ⟨_, hdone⟩) ignoreRules_stray
    (hmem.mpr (by decide))
    (show Registry.builtin.parserFor? (extensionOf "a.cs".toList) = some Parser.csharp from rfl)
    read_a
  have hgd := unreadable_source_summary (Or.inl ⟨_, hdone⟩) ignoreRules_stray
    (hmem.mpr (by decide))
    (show Registry.builtin.parserFor? (extensionOf "b.gd".toList) = some Parser.gdscript from rfl)
    read_b
  have hscript : lower (extensionOf "b.gd".toList) = ".gd".toList := by decide
  obtain ⟨⟨file, hfile, hpath⟩, hlisted, hsummary⟩ := hgd
  refine ⟨_, hdone, ignoreRules_stray, hmem.mpr (by decide), fun h => absurd (hmem.mp h) (by decide),
    hcs.2.1.mpr (by decide), fun h => hlisted.mp h hscript, file, hfile, hpath, ?_⟩
  rw [(hsummary file hfile hpath).2, if_pos hscript]

end Stray

end Overview

end SourceAtlas
