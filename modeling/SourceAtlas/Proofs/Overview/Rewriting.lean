import SourceAtlas.Proofs.FileTree.Avoid
import SourceAtlas.Proofs.Overview.Writing

/-!
# Writing reports again

Reports that were written are written again to the same places. Of those that go to one place the
last one is seen, the first time as well as the second, so the tree does not change. All that writing
changes is in the output directory when the paths of the reports lead there.
-/

namespace SourceAtlas

open List

namespace FileTree

variable {tree before after : FileTree} {here path : Path} {place names out stop : List Text}
  {entries : List (Text × FileTree)} {name : Text} {written : List (Path × Bytes)}
  {content : Bytes} {halt : Option Stop}

/-! ## Grown trees -/

theorem Keeps.trans {last : FileTree} (h : Keeps before after) (hlast : Keeps after last) :
    Keeps before last :=
  ⟨fun hplace => hlast.directory (h.directory hplace), fun hplace => hlast.link (h.link hplace)⟩

theorem Grown.link (h : Grown here written before after) {target : Path}
    (hlink : after.view place = some (.link target)) : before.view place = some (.link target) := by
  obtain hsame | ⟨-, hmade⟩ | ⟨-, file, -, hway⟩ := h place
  · exact hsame.symm.trans hlink
  · cases hmade.symm.trans hlink
  · cases (view_of_spot hway).symm.trans hlink

theorem Grown.file (h : Grown here written before after)
    (hfile : before.view place = some (.file content)) :
    ∃ new, after.view place = some (.file new) := by
  obtain hsame | ⟨hnone, -⟩ | ⟨-, file, -, hway⟩ := h place
  · exact ⟨content, hsame.trans hfile⟩
  · cases hnone.symm.trans hfile
  · exact ⟨file.2, view_of_spot hway⟩

theorem Grown.resolve_eq (h : Grown here written before after) (there path : Path) :
    after.resolve there path = before.resolve there path := by
  unfold resolve
  rw [resolveNames_congr fun place target => ⟨h.link, fun hlink => h.view_of_not_file hlink nofun⟩]

theorem Grown.exists_spot {there : Path} (h : Grown here written before after)
    (hspot : before.spot there path = .ok (.node place (.file content))) :
    ∃ new, after.spot there path = .ok (.node place (.file new)) := by
  obtain ⟨new, hnew⟩ := h.file (view_of_spot hspot)
  exact ⟨new, spot_of_keeps hspot h.keeps hnew⟩

theorem exists_spot_of_write (h : (tree.write here path content halt).fault = none) :
    ∃ place, (tree.write here path content halt).tree.spot here path =
      .ok (.node place (.file content)) := by
  obtain ⟨front, -, -, hgrown⟩ := grown_write tree here path content halt
  obtain ⟨fault, hwrite⟩ | ⟨spot, front, fault, hspot, hslot, -, -, hall, hwrite⟩ :=
    write_cases tree here path content halt
  · rw [hwrite] at h
    cases h
  · rw [hwrite] at h hgrown ⊢
    obtain rfl := hall h
    refine ⟨spot.place, spot_of_keeps hspot hgrown.keeps ?_⟩
    rw [view_put hslot rfl]
    exact Function.update_self ..

theorem hasNull_of_write
    (h : (tree.write here path content halt).fault = none) : path.hasNull = false := by
  cases hnull : path.hasNull with
  | false => rfl
  | true =>
    rw [write, openEmpty, slot, if_pos hnull] at h
    cases h

theorem slot_of_spot (hnull : path.hasNull = false)
    (h : tree.spot here path = .ok (.node place (.file content))) :
    tree.slot here path = .ok (place, content) := by
  rw [slot, hnull, h]
  rfl

/-- Writing to places in a directory, which may be new, changes a tree within that directory. -/
theorem Grown.within (h : Grown here written before after)
    (hmade : ∀ place, after.view place = some .directory →
      before.view place = some .directory ∨ place = out)
    (hwritten : ∀ file ∈ written, out <+: (before.resolve here file.1).parts) :
    Within out before after where
  outside := by
    intro place hclear
    obtain hsame | ⟨hnone, hdirectory⟩ | ⟨-, file, hfile, hway⟩ := h place
    · exact hsame
    · obtain hold | rfl := hmade place hdirectory
      · cases hnone.symm.trans hold
      · exact absurd prefix_rfl hclear
    · have hinside := hwritten file hfile
      rw [← h.resolve_eq, resolve_of_spot hway] at hinside
      exact absurd hinside hclear
  stays := h.view_of_not_file
  link := h.link
  file := h.file

/-! ## The output directory -/

theorem parts_join_concat (here : Path) (absolute : Bool) (front : List Text) (last : Text) :
    (here.join ⟨absolute, front ++ [last]⟩).parts = (here.join ⟨absolute, front⟩).parts ++ [last] := by
  unfold Path.join
  cases absolute <;> simp

theorem makeDirectories_of_parent {refuses : Path → Option FileProblem}
    (hparts : (here.join path).parts = names ++ [name]) (hne : path.parts ≠ [])
    (hway : Leads tree maxLinks [] names (.node place (.directory entries))) :
    (makeDirectories refuses tree here path).tree = tree ∨
      entries.lookup name = none ∧
        (makeDirectories refuses tree here path).tree = tree.put (place ++ [name]) empty := by
  cases hnull : path.hasNull with
  | true =>
    rw [makeDirectories, if_pos hnull]
    exact Or.inl rfl
  | false =>
    rw [makeDirectories_of_hasNull hnull]
    cases hnames : path.parts.reverse with
    | nil => exact absurd (reverse_eq_nil_iff.mp hnames) hne
    | cons last above =>
      have hpath : (⟨path.absolute, above.reverse ++ [last]⟩ : Path) = path := by
        rw [← reverse_cons, ← hnames, reverse_reverse]
      have hchain : makeChain refuses tree here path.absolute above = ⟨tree, none⟩ := by
        refine makeChain_of_isDirectoryAt fun _ => isDirectoryAt_iff.mpr ⟨place, entries, ?_⟩
        rw [← hpath, parts_join_concat] at hparts
        rwa [append_inj_left' hparts rfl]
      have hmake : entries.lookup name = none ∧
            makeDirectory refuses tree here path = .ok (tree.put (place ++ [name]) empty) ∨
          ∃ problem, makeDirectory refuses tree here path = .error problem := by
        rw [makeDirectory_of_leads hparts hway]
        split
        · exact Or.inr ⟨_, rfl⟩
        · next hfree =>
          rw [Bool.or_eq_true, not_or, Option.not_isSome_iff_eq_none] at hfree
          cases refuses path with
          | none => exact Or.inl ⟨hfree.2, rfl⟩
          | some problem => exact Or.inr ⟨problem, rfl⟩
      rw [makeChain, reverse_cons, hpath, hchain]
      obtain ⟨hfree, hmade⟩ | ⟨problem, hfailed⟩ := hmake
      · rw [hmade]
        exact Or.inr ⟨hfree, rfl⟩
      · left
        dsimp only
        rw [hfailed]
        cases problem <;> dsimp only <;> split <;> rfl

end FileTree

namespace Overview

open FileTree

variable {disk again : Disk} {tree : FileTree} {here directory : Path} {report : Text × Text}
  {reports : Entries Text Text} {place names stop : List Text} {entries : List (Text × FileTree)}
  {name : Text} {written : List (Path × Bytes)} {writes : List (List Text × Bytes)}

/-- What every single report preserves is preserved by all of them, also when one of them fails. -/
theorem writeReports_preserves {P : FileTree → Prop}
    (hstep : ∀ (state : FileTree) (report : Text × Text), P state →
      P (writeReport disk state here directory report).tree)
    (h : P tree) (reports : Entries Text Text) :
    P (writeReports disk tree here directory reports).tree := by
  induction reports generalizing tree with
  | nil => exact h
  | cons report reports ih =>
    have hnext := hstep tree report h
    cases hwritten : (writeReport disk tree here directory report).fault with
    | some fault =>
      rw [(writeReports_cons_of_fault report reports hwritten).2]
      exact hnext
    | none =>
      rw [(writeReports_cons_of_written report reports hwritten).2]
      exact ih hnext

theorem view_directory_writeReport (hparts : (here.join directory).parts = names ++ [name])
    (hne : directory.parts ≠ [])
    (hway : Leads tree maxLinks [] names (.node place (.directory entries)))
    (h : (writeReport disk tree here directory report).tree.view stop = some .directory) :
    tree.view stop = some .directory ∨ stop = place ++ [name] := by
  -- a directory that is there after the first step was there or is the output directory
  have hmade : (makeDirectories disk.refuses tree here directory).tree.view stop = some .directory →
      tree.view stop = some .directory ∨ stop = place ++ [name] := by
    obtain hsame | ⟨hfree, hput⟩ := makeDirectories_of_parent hparts hne hway
    · rw [hsame]
      exact Or.inl
    · rw [hput, view_put (isSlot_of_free hway.at?_eq hfree) rfl]
      intro hview
      by_cases hstop : stop = place ++ [name]
      · exact Or.inr hstop
      · rw [Function.update_of_ne hstop] at hview
        exact Or.inl hview
  apply hmade
  obtain htree | htree := tree_writeReport_cases disk tree here directory report
  · rwa [htree] at h
  rw [htree] at h
  obtain ⟨fault, hwrite⟩ | ⟨spot, front, fault, -, hslot, -, -, -, hwrite⟩ := write_cases
    (makeDirectories disk.refuses tree here directory).tree here (reportFile directory report)
    (Utf8.encode report.2) (disk.stops report.1)
  · rwa [hwrite] at h
  · rw [hwrite, view_put hslot rfl] at h
    by_cases hstop : stop = spot.place
    · rw [hstop, Function.update_self] at h
      cases h
    · rwa [Function.update_of_ne hstop] at h

/-- The output directory is the only directory that writing can make. -/
theorem view_directory_writeReports (hparts : (here.join directory).parts = names ++ [name])
    (hne : directory.parts ≠ [])
    (hway : Leads tree maxLinks [] names (.node place (.directory entries)))
    (h : (writeReports disk tree here directory reports).tree.view stop = some .directory) :
    tree.view stop = some .directory ∨ stop = place ++ [name] := by
  -- the way to the directory above stays open from report to report
  have hinvariant : Keeps tree (writeReports disk tree here directory reports).tree ∧
      ((writeReports disk tree here directory reports).tree.view stop = some .directory →
        tree.view stop = some .directory ∨ stop = place ++ [name]) := by
    refine writeReports_preserves (P := fun state => Keeps tree state ∧
      (state.view stop = some .directory →
        tree.view stop = some .directory ∨ stop = place ++ [name])) ?_
      ⟨⟨id, id⟩, Or.inl⟩ reports
    rintro state report ⟨hkeeps, hmade⟩
    obtain ⟨others, hothers⟩ :=
      view_eq_directory_iff.mp (hkeeps.directory (view_of_at? hway.at?_eq))
    refine ⟨hkeeps.trans (keeps_writeReport disk state here directory report), fun hview => ?_⟩
    obtain hdirectory | hstop := view_directory_writeReport hparts hne
      (hway.of_keeps hkeeps hothers nofun) hview
    · exact hmade hdirectory
    · exact Or.inr hstop
  exact hinvariant.2 h

/-! ## What is seen after writing -/

def overlay (writes : List (List Text × Bytes)) (view : List Text → Option Label) :
    List Text → Option Label :=
  writes.foldl (fun view write => Function.update view write.1 (some (.file write.2))) view

theorem overlay_of_notMem {view : List Text → Option Label}
    (h : place ∉ writes.map Prod.fst) : overlay writes view place = view place := by
  induction writes generalizing view with
  | nil => rfl
  | cons write writes ih =>
    rw [map_cons, mem_cons, not_or] at h
    exact (ih h.2).trans (Function.update_of_ne h.1 ..)

/-- What was seen before at the places of the files does not matter. -/
theorem overlay_congr {view other : List Text → Option Label}
    (h : ∀ place ∉ writes.map Prod.fst, view place = other place) :
    overlay writes view = overlay writes other := by
  induction writes generalizing view other with
  | nil => exact funext fun place => h place not_mem_nil
  | cons write writes ih =>
    refine ih fun place hplace => ?_
    dsimp only
    by_cases hfirst : place = write.1
    · rw [hfirst, Function.update_self, Function.update_self]
    · rw [Function.update_of_ne hfirst, Function.update_of_ne hfirst]
      apply h
      rw [map_cons, mem_cons, not_or]
      exact ⟨hfirst, hplace⟩

theorem overlay_overlay (writes : List (List Text × Bytes)) (view : List Text → Option Label) :
    overlay writes (overlay writes view) = overlay writes view :=
  overlay_congr fun _ => overlay_of_notMem

/-- The places that reports are written to, with what is written. -/
def outputPlaces (tree : FileTree) (here directory : Path) (reports : Entries Text Text) :
    List (List Text × Bytes) :=
  reports.map fun report =>
    ((tree.resolve here (reportFile directory report)).parts, Utf8.encode report.2)

theorem outputPlaces_of_grown {after : FileTree}
    (h : Grown here written tree after) (reports : Entries Text Text) :
    outputPlaces after here directory reports = outputPlaces tree here directory reports := by
  unfold outputPlaces
  simp only [h.resolve_eq]

/-- A report that is written into a directory that is there is put where its path leads. -/
theorem exists_put_of_writeReport (hnull : directory.hasNull = false)
    (hdirectory : directory.parts ≠ [] → tree.isDirectoryAt here directory = true)
    (h : (writeReport disk tree here directory report).fault = none) :
    ∃ spot, tree.spot here (reportFile directory report) = .ok spot ∧ IsSlot tree spot.place ∧
      (writeReport disk tree here directory report).tree =
        tree.put spot.place (.file (Utf8.encode report.2)) := by
  have hmade := makeDirectories_of_isDirectoryAt disk.refuses hnull hdirectory
  have hwrite := writeReport_of_made report (congrArg Change.fault hmade)
  rw [hmade] at hwrite
  rw [hwrite] at h ⊢
  obtain ⟨fault, hfault⟩ | ⟨spot, front, fault, hspot, hslot, -, -, hall, hput⟩ :=
    write_cases tree here (reportFile directory report) (Utf8.encode report.2) (disk.stops report.1)
  · rw [hfault] at h
    cases h
  · rw [hput] at h ⊢
    obtain rfl := hall h
    exact ⟨spot, hspot, hslot, rfl⟩

/-- Reports that are written into a directory that is there are laid over what was seen. -/
theorem view_writeReports (hnull : directory.hasNull = false)
    (hdirectory : directory.parts ≠ [] → tree.isDirectoryAt here directory = true)
    (h : (writeReports disk tree here directory reports).fault = none) :
    (writeReports disk tree here directory reports).tree.view =
      overlay (outputPlaces tree here directory reports) tree.view := by
  induction reports generalizing tree with
  | nil => rfl
  | cons report reports ih =>
    obtain ⟨hwritten, hrest⟩ := writeReports_cons_eq_none_iff.mp h
    obtain ⟨spot, hspot, hslot, hput⟩ := exists_put_of_writeReport hnull hdirectory hwritten
    obtain ⟨front, -, -, hgrown⟩ := grown_writeReport disk tree here directory report
    have hview := ih (fun hparts => isDirectoryAt_of_keeps (hdirectory hparts) hgrown.keeps) hrest
    have hplace := congrArg Path.parts (resolve_of_spot hspot)
    rw [(writeReports_cons_of_written report reports hwritten).2, hview,
      outputPlaces_of_grown hgrown, hput, view_put hslot rfl]
    unfold outputPlaces
    rw [map_cons, hplace]
    rfl

/-! ## The second time -/

theorem ordered_writeReport (h : tree.Ordered) (disk : Disk) (here directory : Path)
    (report : Text × Text) :
    (writeReport disk tree here directory report).tree.Ordered := by
  have hmade := h.makeDirectories disk.refuses here directory
  obtain htree | htree := tree_writeReport_cases disk tree here directory report
  · rwa [htree]
  · rw [htree]
    exact Ordered.write hmade here _ _ _

theorem ordered_writeReports (h : tree.Ordered) (disk : Disk) (here directory : Path)
    (reports : Entries Text Text) : (writeReports disk tree here directory reports).tree.Ordered :=
  writeReports_preserves (P := Ordered)
    (fun _ report hstate => ordered_writeReport hstate disk here directory report) h reports

/-- Whether a path has no null character in it and leads to a file. -/
def HasFile (tree : FileTree) (here path : Path) : Prop :=
  path.hasNull = false ∧ ∃ place content, tree.spot here path = .ok (.node place (.file content))

theorem hasFile_of_writeReport (h : (writeReport disk tree here directory report).fault = none) :
    HasFile (writeReport disk tree here directory report).tree here
      (reportFile directory report) := by
  obtain ⟨-, hwrite⟩ := writeReport_of_written h
  rw [hwrite] at h ⊢
  obtain ⟨place, hspot⟩ := exists_spot_of_write h
  exact ⟨hasNull_of_write h, place, _, hspot⟩

theorem HasFile.of_grown {after : FileTree} {path : Path}
    (h : HasFile tree here path) (hgrown : Grown here written tree after) :
    HasFile after here path := by
  obtain ⟨hnull, place, content, hspot⟩ := h
  exact ⟨hnull, place, hgrown.exists_spot hspot⟩

theorem hasFile_of_written (h : (writeReports disk tree here directory reports).fault = none) :
    ∀ report ∈ reports, HasFile (writeReports disk tree here directory reports).tree here
      (reportFile directory report) := by
  induction reports generalizing tree with
  | nil => exact fun report hreport => absurd hreport not_mem_nil
  | cons report reports ih =>
    obtain ⟨hwritten, hrest⟩ := writeReports_cons_eq_none_iff.mp h
    rw [(writeReports_cons_of_written report reports hwritten).2, forall_mem_cons]
    exact ⟨(hasFile_of_writeReport hwritten).of_grown (grown_writeReports hrest), ih hrest⟩

/-- Where every report has a file already and the disk stops none of them, all can be written. -/
theorem fault_writeReports_of_hasFile (hnull : directory.hasNull = false)
    (hdirectory : directory.parts ≠ [] → tree.isDirectoryAt here directory = true)
    (hdisk : ∀ report ∈ reports, disk.stops report.1 = none)
    (h : ∀ report ∈ reports, HasFile tree here (reportFile directory report)) :
    (writeReports disk tree here directory reports).fault = none := by
  induction reports generalizing tree with
  | nil => rfl
  | cons report reports ih =>
    rw [forall_mem_cons] at h hdisk
    obtain ⟨⟨hfree, place, content, hspot⟩, hrest⟩ := h
    have hmade := makeDirectories_of_isDirectoryAt disk.refuses hnull hdirectory
    obtain ⟨front, -, -, hgrown⟩ := grown_writeReport disk tree here directory report
    have hwritten : (writeReport disk tree here directory report).fault = none := by
      rw [writeReport_of_made report (congrArg Change.fault hmade), hmade, hdisk.1,
        write_of_slot (slot_of_spot hfree hspot)]
    refine writeReports_cons_eq_none_iff.mpr ⟨hwritten, ih ?_ hdisk.2 ?_⟩
    · exact fun hparts => isDirectoryAt_of_keeps (hdirectory hparts) hgrown.keeps
    · exact fun other hother => (hrest other hother).of_grown hgrown

/-- The first report makes the output directory; to the others it does not matter who made it. -/
theorem writeReports_eq_of_made (hne : reports ≠ [])
    (hmade : (makeDirectories disk.refuses tree here directory).fault = none) :
    writeReports disk tree here directory reports =
      writeReports disk (makeDirectories disk.refuses tree here directory).tree here directory
        reports := by
  obtain ⟨report, rest, rfl⟩ := exists_cons_of_ne_nil hne
  have hagain := makeDirectories_of_isDirectoryAt disk.refuses
    (hasNull_of_makeDirectories hmade) (isDirectoryAt_of_makeDirectories hmade)
  have hwrite : writeReport disk (makeDirectories disk.refuses tree here directory).tree here directory
      report = writeReport disk tree here directory report := by
    rw [writeReport_of_made report hmade, writeReport_of_made report
      (congrArg Change.fault hagain), hagain]
  rw [writeReports, writeReports]
  simp only [hwrite]

theorem fault_makeDirectories_of_written (hne : reports ≠ [])
    (h : (writeReports disk tree here directory reports).fault = none) :
    (makeDirectories disk.refuses tree here directory).fault = none := by
  obtain ⟨report, rest, rfl⟩ := exists_cons_of_ne_nil hne
  obtain ⟨hwritten, -⟩ := writeReports_cons_eq_none_iff.mp h
  exact (writeReport_of_written hwritten).1

theorem writeReports_again (hordered : tree.Ordered) (hne : reports ≠ [])
    (h : (writeReports disk tree here directory reports).fault = none)
    (hdisk : ∀ report ∈ reports, again.stops report.1 = none) :
    (writeReports again (writeReports disk tree here directory reports).tree here directory
        reports).fault = none ∧
      (writeReports again (writeReports disk tree here directory reports).tree here directory
        reports).tree = (writeReports disk tree here directory reports).tree := by
  have hmade := fault_makeDirectories_of_written hne h
  have hnull := hasNull_of_makeDirectories hmade
  have hstart := isDirectoryAt_of_makeDirectories hmade
  have hafter := ordered_writeReports hordered disk here directory reports
  have hfiles := hasFile_of_written h
  -- start behind the making of the output directory, so that all changes are files
  rw [writeReports_eq_of_made hne hmade] at h hafter hfiles ⊢
  generalize (makeDirectories disk.refuses tree here directory).tree = made
    at hstart h hafter hfiles ⊢
  have hgrown := grown_writeReports h
  have hview := view_writeReports hnull hstart h
  generalize (writeReports disk made here directory reports).tree = after
    at hafter hfiles hgrown hview ⊢
  have hdirectory : directory.parts ≠ [] → after.isDirectoryAt here directory = true :=
    fun hparts => isDirectoryAt_of_keeps (hstart hparts) hgrown.keeps
  have hagain := fault_writeReports_of_hasFile hnull hdirectory hdisk hfiles
  refine ⟨hagain, hafter.eq_of_view_eq (ordered_writeReports hafter again here directory reports) ?_⟩
  calc
    (writeReports again after here directory reports).tree.view
        = overlay (outputPlaces after here directory reports) after.view :=
      view_writeReports hnull hdirectory hagain
    _ = overlay (outputPlaces made here directory reports)
          (overlay (outputPlaces made here directory reports) made.view) := by
      rw [outputPlaces_of_grown hgrown, hview]
    _ = overlay (outputPlaces made here directory reports) made.view := overlay_overlay ..
    _ = after.view := hview.symm

end Overview

end SourceAtlas
