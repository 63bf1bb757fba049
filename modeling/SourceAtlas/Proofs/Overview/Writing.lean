import SourceAtlas.Proofs.Overview.Reports

/-!
# Interrupted writing

Reports are written one after the other. When one cannot be written, those in front of it stay. The file
of the report itself is untouched or holds a front of its text, since a file is emptied when it is opened.
Nothing else changes: directories and links are what they were, and every file with a new content is one
of these reports. A run that fails for any other reason changes nothing.
-/

namespace SourceAtlas.Overview

open FileTree

variable {disk : Disk} {tree : FileTree} {here directory : Path} {report : Text × Text}
  {reports : Entries Text Text} {fault : WriteFault}

/-- The files that reports are written to, with what is written. -/
def outputFiles (directory : Path) (reports : Entries Text Text) : List (Path × Bytes) :=
  reports.map fun report => (reportFile directory report, Utf8.encode report.2)

/-! ## One report -/

theorem writeReport_of_made (report : Text × Text)
    (h : (makeDirectories disk.refuses tree here directory).fault = none) :
    writeReport disk tree here directory report =
      (makeDirectories disk.refuses tree here directory).tree.write here
        (reportFile directory report) (Utf8.encode report.2) (disk.stops report.1) := by
  unfold writeReport
  simp only [h]

theorem writeReport_of_not_made (report : Text × Text)
    (h : (makeDirectories disk.refuses tree here directory).fault = some fault) :
    writeReport disk tree here directory report =
      ⟨(makeDirectories disk.refuses tree here directory).tree, some fault⟩ := by
  unfold writeReport
  simp only [h]

theorem writeReport_of_written (h : (writeReport disk tree here directory report).fault = none) :
    (makeDirectories disk.refuses tree here directory).fault = none ∧
      writeReport disk tree here directory report =
        (makeDirectories disk.refuses tree here directory).tree.write here
          (reportFile directory report) (Utf8.encode report.2) (disk.stops report.1) := by
  cases hmade : (makeDirectories disk.refuses tree here directory).fault with
  | some fault =>
    rw [writeReport_of_not_made report hmade] at h
    cases h
  | none => exact ⟨rfl, writeReport_of_made report hmade⟩

theorem tree_writeReport_cases (disk : Disk) (tree : FileTree) (here directory : Path)
    (report : Text × Text) :
    (writeReport disk tree here directory report).tree =
        (makeDirectories disk.refuses tree here directory).tree ∨
      (writeReport disk tree here directory report).tree =
        ((makeDirectories disk.refuses tree here directory).tree.write here
          (reportFile directory report) (Utf8.encode report.2) (disk.stops report.1)).tree := by
  cases hmade : (makeDirectories disk.refuses tree here directory).fault with
  | some fault => exact Or.inl (by rw [writeReport_of_not_made report hmade])
  | none => exact Or.inr (by rw [writeReport_of_made report hmade])

/-- What is left where a file was to be written: all is as before, or the path leads to a file with a
front of the content. -/
def LeftOver (here file : Path) (content : Bytes) (before after : FileTree) : Prop :=
  after = before ∨ ∃ spot front, before.spot here file = .ok spot ∧
    (before.view spot.place = none ∨ ∃ old, before.view spot.place = some (.file old)) ∧
    front <+: content ∧ after = before.put spot.place (.file front)

theorem leftOver_writeReport (disk : Disk) (tree : FileTree) (here directory : Path)
    (report : Text × Text) :
    LeftOver here (reportFile directory report) (Utf8.encode report.2)
      (makeDirectories disk.refuses tree here directory).tree
      (writeReport disk tree here directory report).tree := by
  obtain htree | htree := tree_writeReport_cases disk tree here directory report
  · exact Or.inl htree
  rw [htree]
  obtain ⟨fault, hwrite⟩ | ⟨spot, front, fault, hspot, -, hold, hfront, -, hwrite⟩ :=
    write_cases (makeDirectories disk.refuses tree here directory).tree here
      (reportFile directory report) (Utf8.encode report.2) (disk.stops report.1)
  · rw [hwrite]
    exact Or.inl rfl
  · rw [hwrite]
    exact Or.inr ⟨spot, front, hspot, hold, hfront, rfl⟩

theorem grown_writeReport (disk : Disk) (tree : FileTree) (here directory : Path)
    (report : Text × Text) :
    ∃ front, front <+: Utf8.encode report.2 ∧
      ((writeReport disk tree here directory report).fault = none →
        front = Utf8.encode report.2) ∧
      Grown here [(reportFile directory report, front)] tree
        (writeReport disk tree here directory report).tree := by
  have hdirectories := grown_makeDirectories disk.refuses tree here directory
  cases hmade : (makeDirectories disk.refuses tree here directory).fault with
  | some fault =>
    rw [writeReport_of_not_made report hmade]
    exact ⟨[], List.nil_prefix, nofun, hdirectories.trans (grown_refl _)⟩
  | none =>
    rw [writeReport_of_made report hmade]
    obtain ⟨front, hfront, hall, hgrown⟩ :=
      grown_write (makeDirectories disk.refuses tree here directory).tree here
        (reportFile directory report) (Utf8.encode report.2) (disk.stops report.1)
    exact ⟨front, hfront, hall, hdirectories.trans hgrown⟩

theorem keeps_writeReport (disk : Disk) (tree : FileTree) (here directory : Path)
    (report : Text × Text) :
    Keeps tree (writeReport disk tree here directory report).tree := by
  obtain ⟨front, -, -, hgrown⟩ := grown_writeReport disk tree here directory report
  exact hgrown.keeps

theorem isDirectoryAt_of_writeReport
    (h : (writeReport disk tree here directory report).fault = none) :
    directory.hasNull = false ∧ (directory.parts ≠ [] →
      (writeReport disk tree here directory report).tree.isDirectoryAt here directory =
        true) := by
  obtain ⟨hmade, hwrite⟩ := writeReport_of_written h
  refine ⟨hasNull_of_makeDirectories hmade, fun hparts => ?_⟩
  rw [hwrite]
  obtain ⟨front, -, -, hgrown⟩ :=
    grown_write (makeDirectories disk.refuses tree here directory).tree here
      (reportFile directory report) (Utf8.encode report.2) (disk.stops report.1)
  exact isDirectoryAt_of_keeps (isDirectoryAt_of_makeDirectories hmade hparts) hgrown.keeps

/-! ## Several reports -/

theorem writeReports_cons_of_written (report : Text × Text) (reports : Entries Text Text)
    (h : (writeReport disk tree here directory report).fault = none) :
    (writeReports disk tree here directory (report :: reports)).fault =
      (writeReports disk (writeReport disk tree here directory report).tree here directory
        reports).fault ∧
    (writeReports disk tree here directory (report :: reports)).tree =
      (writeReports disk (writeReport disk tree here directory report).tree here directory
        reports).tree := by
  rw [writeReports]
  simp only [h, and_self]

theorem writeReports_cons_of_fault (report : Text × Text) (reports : Entries Text Text)
    (h : (writeReport disk tree here directory report).fault = some fault) :
    (writeReports disk tree here directory (report :: reports)).fault = some fault ∧
    (writeReports disk tree here directory (report :: reports)).tree =
      (writeReport disk tree here directory report).tree := by
  rw [writeReports]
  simp only [h, and_self]

theorem writeReports_cons_eq_none_iff :
    (writeReports disk tree here directory (report :: reports)).fault = none ↔
      (writeReport disk tree here directory report).fault = none ∧
        (writeReports disk (writeReport disk tree here directory report).tree here
          directory reports).fault = none := by
  cases hwritten : (writeReport disk tree here directory report).fault with
  | some fault => simp [(writeReports_cons_of_fault report reports hwritten).1]
  | none => simp [(writeReports_cons_of_written report reports hwritten).1]

theorem grown_writeReports (h : (writeReports disk tree here directory reports).fault = none) :
    Grown here (outputFiles directory reports) tree
      (writeReports disk tree here directory reports).tree := by
  induction reports generalizing tree with
  | nil => exact grown_refl tree
  | cons report reports ih =>
    obtain ⟨hwritten, hrest⟩ := writeReports_cons_eq_none_iff.mp h
    obtain ⟨front, -, hall, hstep⟩ := grown_writeReport disk tree here directory report
    obtain rfl := hall hwritten
    rw [(writeReports_cons_of_written report reports hwritten).2]
    exact hstep.trans (ih hrest)

theorem makeDirectories_of_written (refuses : Path → Option FileProblem) (hreports : reports ≠ [])
    (h : (writeReports disk tree here directory reports).fault = none) :
    makeDirectories refuses (writeReports disk tree here directory reports).tree here directory =
      ⟨(writeReports disk tree here directory reports).tree, none⟩ := by
  obtain ⟨report, rest, rfl⟩ := List.exists_cons_of_ne_nil hreports
  obtain ⟨hwritten, hrest⟩ := writeReports_cons_eq_none_iff.mp h
  obtain ⟨hnull, hdirectory⟩ := isDirectoryAt_of_writeReport hwritten
  apply makeDirectories_of_isDirectoryAt refuses hnull
  intro hparts
  rw [(writeReports_cons_of_written report rest hwritten).2]
  exact isDirectoryAt_of_keeps (hdirectory hparts) (grown_writeReports hrest).keeps

theorem exists_of_writeReports_fault
    (h : (writeReports disk tree here directory reports).fault = some fault) :
    ∃ done failing rest, reports = done ++ failing :: rest ∧
      (writeReports disk tree here directory done).fault = none ∧
      writeReport disk (writeReports disk tree here directory done).tree here directory failing =
        ⟨(writeReports disk tree here directory reports).tree, some fault⟩ := by
  induction reports generalizing tree with
  | nil => cases h
  | cons report reports ih =>
    cases hwritten : (writeReport disk tree here directory report).fault with
    | some other =>
      obtain ⟨hfault, htree⟩ := writeReports_cons_of_fault report reports hwritten
      obtain rfl := Option.some.inj (hfault.symm.trans h)
      refine ⟨[], report, reports, rfl, rfl, ?_⟩
      rw [htree, ← hwritten]
      rfl
    | none =>
      obtain ⟨hfault, htree⟩ := writeReports_cons_of_written report reports hwritten
      rw [hfault] at h
      obtain ⟨done, failing, rest, rfl, hdone, hfailing⟩ := ih h
      obtain ⟨hdoneFault, hdoneTree⟩ := writeReports_cons_of_written report done hwritten
      refine ⟨report :: done, failing, rest, rfl, hdoneFault.trans hdone, ?_⟩
      rw [hdoneTree, htree]
      exact hfailing

/-- Writing that got through some reports and stopped at the next one. The reports stay, or what was
made of the output directory if there are none. The file of the next one is untouched or holds a front
of its text, and nothing else is touched. -/
structure StopsAt (disk : Disk) (tree : FileTree) (here directory : Path) (done : Entries Text Text)
    (failing : Text × Text) (after : FileTree) (fault : WriteFault) : Prop where
  written : (writeReports disk tree here directory done).fault = none
  failed : writeReport disk (writeReports disk tree here directory done).tree here directory
    failing = ⟨after, some fault⟩
  attempted : done = [] → LeftOver here (reportFile directory failing) (Utf8.encode failing.2)
    (makeDirectories disk.refuses tree here directory).tree after
  kept : done ≠ [] → LeftOver here (reportFile directory failing) (Utf8.encode failing.2)
    (writeReports disk tree here directory done).tree after
  grown : ∃ front, front <+: Utf8.encode failing.2 ∧
    Grown here (outputFiles directory done ++ [(reportFile directory failing, front)]) tree after

theorem exists_stopsAt (h : (writeReports disk tree here directory reports).fault = some fault) :
    ∃ done failing rest, reports = done ++ failing :: rest ∧
      StopsAt disk tree here directory done failing
        (writeReports disk tree here directory reports).tree fault := by
  obtain ⟨done, failing, rest, hreports, hdone, hfailing⟩ := exists_of_writeReports_fault h
  have hleft := leftOver_writeReport disk (writeReports disk tree here directory done).tree here
    directory failing
  obtain ⟨front, hfront, -, hgrown⟩ := grown_writeReport disk
    (writeReports disk tree here directory done).tree here directory failing
  rw [hfailing] at hleft hgrown
  refine ⟨done, failing, rest, hreports, hdone, hfailing, ?_, ?_,
    front, hfront, (grown_writeReports hdone).trans hgrown⟩
  · rintro rfl
    exact hleft
  · intro hsome
    rwa [makeDirectories_of_written _ hsome hdone] at hleft

/-- A run that fails leaves the tree as it is unless its writing was stopped. -/
theorem tree_of_failed_run {tools : Tools} {path : Text} {config outputDir : Option Text}
    {dryRun : Bool} {failure : Failure}
    (h : (run tools tree here path config outputDir dryRun).outcome = .error failure) :
    ((∀ fault, failure ≠ .writing fault) →
        (run tools tree here path config outputDir dryRun).tree = tree) ∧
      ∀ fault, failure = .writing fault → dryRun = false ∧ ∃ found done failing rest,
        (survey tools.yaml tree here path config).value = .ok found ∧
        (render tools.engine tree found).value = .ok (done ++ failing :: rest) ∧
        StopsAt tools.disk tree here (outputDirectory found.root outputDir) done failing
          (run tools tree here path config outputDir dryRun).tree fault := by
  obtain ⟨other, hother, hnot, htree⟩ | ⟨found, reports, hsurvey, hrender⟩ :=
    run_cases tools tree here path config outputDir dryRun
  · obtain rfl := Except.error.inj (hother.symm.trans h)
    exact ⟨fun _ => htree, fun fault hwriting => absurd hwriting (hnot fault)⟩
  obtain ⟨hdeliver, htree⟩ := run_of_render hsurvey hrender
  rw [hdeliver] at h
  cases dryRun with
  | true => cases (deliver_of_dryRun ..).1.symm.trans h
  | false =>
    rw [deliver_tree] at htree
    cases hfault : (writeReports tools.disk tree here (outputDirectory found.root outputDir)
        reports).fault with
    | none => cases (deliver_of_written hfault).symm.trans h
    | some fault =>
      obtain rfl := Except.error.inj ((deliver_of_fault hfault).symm.trans h)
      refine ⟨fun hnot => absurd rfl (hnot fault), fun other hwriting => ⟨rfl, ?_⟩⟩
      obtain rfl := Failure.writing.inj hwriting
      obtain ⟨done, failing, rest, rfl, hstops⟩ := exists_stopsAt hfault
      rw [htree]
      exact ⟨found, done, failing, rest, hsurvey, hrender, hstops⟩

/-! ## A run that stops after its first report -/

def strayOutput : Path :=
  ⟨true, [overviewDirectory]⟩

/-- The stray workspace with an output directory that holds the report on the directory tree. -/
def strayWritten (layout : Text) : FileTree :=
  (stray.put [overviewDirectory] empty).put [overviewDirectory, layoutFile]
    (.file (Utf8.encode layout))

/-- The first report of a workspace at the top of a tree makes the output directory. -/
theorem writeReport_top {entries : List (Text × FileTree)}
    (hfree : entries.lookup overviewDirectory = none) (layout : Text) :
    writeReport .sound (.directory entries) top strayOutput (layoutFile, layout) =
      ⟨((FileTree.directory entries).put [overviewDirectory] empty).put
        [overviewDirectory, layoutFile] (.file (Utf8.encode layout)), none⟩ := by
  have hmake : makeDirectory Disk.sound.refuses (.directory entries) top strayOutput =
      .ok ((FileTree.directory entries).put [overviewDirectory] empty) :=
    makeDirectory_eq_ok_iff.mpr
      ⟨[], overviewDirectory, [], entries, rfl, .stop rfl, by decide, hfree, rfl, rfl⟩
  have hmade := makeDirectories_of_makeDirectory (by decide) (List.cons_ne_nil _ _) hmake
  have hview : ((FileTree.directory entries).put [overviewDirectory] empty).view =
      Function.update (FileTree.directory entries).view [overviewDirectory] (some .directory) :=
    view_put (.free hfree) rfl
  have houtput : ((FileTree.directory entries).put [overviewDirectory] empty).view
      ([] ++ [overviewDirectory]) = some .directory := by
    rw [hview]
    exact Function.update_self ..
  have hvacant : ((FileTree.directory entries).put [overviewDirectory] empty).view
      ([] ++ [overviewDirectory] ++ [layoutFile]) = none := by
    rw [hview, Function.update_of_ne (by simp), List.nil_append, List.singleton_append, view_cons,
      hfree, Option.bind_none]
  have hnull : (reportFile strayOutput (layoutFile, layout)).hasNull = false := rfl
  have hspot : ((FileTree.directory entries).put [overviewDirectory] empty).spot top
      (reportFile strayOutput (layoutFile, layout)) = .ok (.vacant [overviewDirectory, layoutFile]) :=
    locate_of_leads (.enter rfl (by decide) houtput nofun (.free houtput (by decide) hvacant))
  have hslot : ((FileTree.directory entries).put [overviewDirectory] empty).slot top
      (reportFile strayOutput (layoutFile, layout)) = .ok ([overviewDirectory, layoutFile], []) := by
    rw [slot, hnull, hspot]
    rfl
  rw [writeReport_of_made (layoutFile, layout) (congrArg Change.fault hmade), hmade]
  exact write_of_slot hslot

theorem writeReport_stray (layout : Text) :
    writeReport .sound stray top strayOutput (layoutFile, layout) = ⟨strayWritten layout, none⟩ :=
  writeReport_top rfl layout

/-- The second report would have to be in a directory that nobody makes. -/
theorem writeReport_strayWritten (layout last : Text) :
    writeReport .sound (strayWritten layout) top strayOutput ("out/R.md".toList, last) =
      ⟨strayWritten layout,
        some (.file ⟨.notFound, reportFile strayOutput ("out/R.md".toList, last)⟩)⟩ := by
  have hdirectory : (strayWritten layout).isDirectoryAt top strayOutput = true :=
    isDirectoryAt_iff.mpr ⟨[overviewDirectory], _,
      .enter rfl (by decide) rfl nofun (.stop rfl)⟩
  have hmade : makeDirectories Disk.sound.refuses (strayWritten layout) top strayOutput =
      ⟨strayWritten layout, none⟩ :=
    makeDirectories_of_isDirectoryAt _ (by decide) fun _ => hdirectory
  have hnull : (reportFile strayOutput ("out/R.md".toList, last)).hasNull = false := rfl
  have hspot : (strayWritten layout).spot top
      (reportFile strayOutput ("out/R.md".toList, last)) = .error .notFound := by
    have hparts : (top.join (reportFile strayOutput ("out/R.md".toList, last))).parts =
        [overviewDirectory, "out".toList, "R.md".toList] := rfl
    have hfirst : (strayWritten layout).locate maxLinks []
        [overviewDirectory, "out".toList, "R.md".toList] =
          (strayWritten layout).locate maxLinks [overviewDirectory] ["out".toList, "R.md".toList] := by
      rw [locate]
      rfl
    unfold FileTree.spot
    rw [hparts, hfirst, locate]
    rfl
  rw [writeReport_of_made ("out/R.md".toList, last) (congrArg Change.fault hmade), hmade, write,
    openEmpty, slot, hnull, hspot]
  rfl

theorem exists_run_stray : ∃ layout fault,
    (run noTools stray top ".".toList none none false).outcome = .error (.writing fault) ∧
    (run noTools stray top ".".toList none none false).tree = strayWritten layout := by
  obtain ⟨layout, hrender⟩ := render_stray noTools.engine
  have htarget : outputDirectory strayFound.root none = strayOutput := rfl
  have hfirst := writeReport_stray layout
  have hsecond := writeReport_strayWritten layout (strayText (some "last".toList))
  obtain ⟨hfault, htree⟩ := writeReports_cons_of_written (layoutFile, layout)
    [("out/R.md".toList, strayText (some "last".toList))] (congrArg Change.fault hfirst)
  rw [congrArg Change.tree hfirst] at hfault htree
  obtain ⟨hstopped, hstays⟩ := writeReports_cons_of_fault
    ("out/R.md".toList, strayText (some "last".toList)) []
    (congrArg Change.fault hsecond)
  obtain ⟨hrun, hafter⟩ := run_of_render (survey_stray noTools.yaml) hrender
  rw [htarget] at hrun hafter
  refine ⟨layout, _, hrun.trans (deliver_of_fault (hfault.trans hstopped)), ?_⟩
  rw [hafter, deliver_tree]
  exact htree.trans (hstays.trans (congrArg Change.tree hsecond))

/-- A run over the stray workspace fails and leaves a directory with a report. -/
theorem failed_run_changes_tree :
    ∃ fault, (run noTools stray top ".".toList none none false).outcome = .error (.writing fault) ∧
      stray.view [overviewDirectory] = none ∧
      (run noTools stray top ".".toList none none false).tree.view [overviewDirectory] =
        some .directory ∧
      (run noTools stray top ".".toList none none false).tree ≠ stray := by
  obtain ⟨layout, fault, hrun, htree⟩ := exists_run_stray
  have hbefore : stray.view [overviewDirectory] = none := rfl
  have hafter : (run noTools stray top ".".toList none none false).tree.view [overviewDirectory] =
      some .directory := by
    rw [htree]
    rfl
  refine ⟨fault, hrun, hbefore, hafter, ?_⟩
  intro hsame
  rw [hsame, hbefore] at hafter
  cases hafter

/-- What is left of it is the output directory with the reports in front of the failing one. -/
theorem tree_of_failed_run_stray :
    ∃ fault, (run noTools stray top ".".toList none none false).outcome = .error (.writing fault) ∧
      ∃ done failing rest,
        (render noTools.engine stray strayFound).value = .ok (done ++ failing :: rest) ∧
        StopsAt noTools.disk stray top strayOutput done failing
          (run noTools stray top ".".toList none none false).tree fault := by
  obtain ⟨layout, fault, hrun, -⟩ := exists_run_stray
  obtain ⟨-, found, done, failing, rest, hsurvey, hrender, hstops⟩ :=
    (tree_of_failed_run hrun).2 fault rfl
  obtain rfl := Except.ok.inj ((survey_stray _).symm.trans hsurvey)
  exact ⟨fault, hrun, done, failing, rest, hrender, hstops⟩

end SourceAtlas.Overview
