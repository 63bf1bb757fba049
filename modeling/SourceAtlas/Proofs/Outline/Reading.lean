import SourceAtlas.Proofs.Outline.Order
import SourceAtlas.Proofs.Text.Drawn

/-!
# Reading an outline back

A line below a directory is indented by one unit, and a line that ends with a slash is a directory.
So a drawing can be read back line by line, whatever characters the names hold. The root is the last
line that ends with a slash and has nothing indented below it.
-/

namespace SourceAtlas

open List Option

namespace Outline

/-! ## Reading -/

def isIndented (line : Text) : Bool :=
  startsWith "│   ".toList line || startsWith "    ".toList line

def labelName (label : Text) : Text :=
  if label.getLast? = some '/' then label.dropLast else label

/-- The entries that lines show. What is indented below a line belongs to it. -/
def readLines : List Text → List OutlineEntry
  | [] => []
  | line :: rest =>
    let label := line.drop 4
    ⟨[labelName label], label.getLast? == some '/'⟩ ::
      ((readLines ((rest.takeWhile isIndented).map (·.drop 4))).map (.under (labelName label)) ++
        readLines (rest.dropWhile isIndented))
termination_by lines => lines.length
decreasing_by
  · have hlength := (takeWhile_sublist isIndented (l := rest)).length_le
    simp only [length_map, length_cons]
    omega
  · have hlength := (dropWhile_sublist isIndented (l := rest)).length_le
    simp only [length_cons]
    omega

/-- Whether one of the lines ends with a slash and has nothing indented below it. -/
def hasRoot : List Text → Bool
  | [] => false
  | line :: rest => (line.getLast? == some '/' && !rest.head?.any isIndented) || hasRoot rest

def belowRoot : List Text → List Text
  | [] => []
  | _ :: rest => if hasRoot rest then belowRoot rest else rest

def read (text : Text) : List OutlineEntry :=
  readLines (belowRoot (splitOn '\n' text))

/-! ## Branches and indentation -/

def branch (isLast : Bool) : Text :=
  if isLast then "└── ".toList else "├── ".toList

def indent (isLast : Bool) : Text :=
  if isLast then "    ".toList else "│   ".toList

variable {isLast : Bool} {name line label : Text} {lines later : List Text}
  {children forest rest : List OutlineNode} {kind : Text → Prop}

theorem isIndented_indent (isLast : Bool) (line : Text) :
    isIndented (indent isLast ++ line) = true := by
  cases isLast <;> rfl

theorem isIndented_branch (isLast : Bool) (line : Text) :
    isIndented (branch isLast ++ line) = false := by
  cases isLast <;> rfl

theorem drop_indent (isLast : Bool) (line : Text) : (indent isLast ++ line).drop 4 = line := by
  cases isLast <;> rfl

theorem drop_branch (isLast : Bool) (line : Text) : (branch isLast ++ line).drop 4 = line := by
  cases isLast <;> rfl

def glyphs : Text :=
  "│├└─ ".toList

theorem branch_subset (isLast : Bool) : branch isLast ⊆ glyphs := by
  have hall : (branch isLast).all glyphs.contains = true := by cases isLast <;> decide
  exact fun c hc => contains_iff_mem.mp (all_eq_true.mp hall c hc)

theorem indent_subset (isLast : Bool) : indent isLast ⊆ glyphs := by
  have hall : (indent isLast).all glyphs.contains = true := by cases isLast <;> decide
  exact fun c hc => contains_iff_mem.mp (all_eq_true.mp hall c hc)

def labelOf (name : Text) (isDirectory : Bool) : Text :=
  name ++ if isDirectory then ['/'] else []

theorem getLast?_labelOf (h : '/' ∉ name) (isDirectory : Bool) :
    ((labelOf name isDirectory).getLast? == some '/') = isDirectory := by
  cases isDirectory with
  | true => simp [labelOf]
  | false =>
    rw [beq_eq_false_iff_ne]
    intro hlast
    simp only [labelOf, Bool.false_eq_true, if_false, append_nil] at hlast
    exact h (mem_of_getLast? hlast)

theorem labelName_labelOf (h : '/' ∉ name) (isDirectory : Bool) :
    labelName (labelOf name isDirectory) = name := by
  have hlast := getLast?_labelOf h isDirectory
  cases isDirectory with
  | true => simp [labelName, labelOf]
  | false =>
    rw [labelName, if_neg (by simpa using hlast)]
    exact append_nil name

theorem sketch_node (name : Text) (children rest : List OutlineNode) :
    OutlineNode.sketch (.node name children :: rest) =
      (branch rest.isEmpty ++ labelOf name (!children.isEmpty)) ::
        ((OutlineNode.sketch children).map (indent rest.isEmpty ++ ·) ++ OutlineNode.sketch rest) := by
  have hlabel : (if children.isEmpty then name else name ++ ['/']) =
      labelOf name (!children.isEmpty) := by
    cases children.isEmpty <;> simp [labelOf]
  rw [OutlineNode.sketch_cons, OutlineNode.plainBlock, OutlineBlock.draw, hlabel]
  rfl

theorem head?_sketch_not_indented (forest : List OutlineNode) :
    (OutlineNode.sketch forest).head?.any isIndented = false := by
  cases forest with
  | nil => rw [OutlineNode.sketch_nil]; rfl
  | cons node rest =>
    obtain ⟨name, children⟩ := node
    rw [sketch_node, head?_cons]
    exact isIndented_branch ..

/-! ## Drawings are read back -/

def HasNames (kind : Text → Prop) (forest : List OutlineNode) : Prop :=
  ∀ parts, OutlineNode.Leads parts forest → ∀ part ∈ parts, kind part

theorem HasNames.cons (h : HasNames kind (.node name children :: rest)) :
    kind name ∧ HasNames kind children ∧ HasNames kind rest := by
  refine ⟨?_, ?_, ?_⟩
  · exact h [name] (OutlineNode.leads_of_mem mem_cons_self) name mem_cons_self
  · intro parts hleads part hpart
    apply h (name :: parts) _ part (mem_cons_of_mem name hpart)
    exact OutlineNode.leads_cons_cons.mpr (Or.inl ⟨rfl, hleads⟩)
  · exact fun parts hleads => h parts (hleads.cons _)

theorem readLines_nil : readLines [] = [] := by
  rw [readLines]

theorem readLines_append (hinner : (later.head?.any isIndented) = false) :
    readLines ((branch isLast ++ label) :: (lines.map (indent isLast ++ ·) ++ later)) =
      ⟨[labelName label], label.getLast? == some '/'⟩ ::
        ((readLines lines).map (.under (labelName label)) ++ readLines later) := by
  have hindented : ∀ line ∈ lines.map (indent isLast ++ ·), isIndented line = true := by
    rw [List.forall_mem_map]
    exact fun line _ => isIndented_indent isLast line
  have htake : later.takeWhile isIndented = [] ∧ later.dropWhile isIndented = later := by
    cases later with
    | nil => exact ⟨rfl, rfl⟩
    | cons next later =>
      have hnext : isIndented next = false := hinner
      simp [hnext]
  have hdrop : (lines.map (indent isLast ++ ·)).map (·.drop 4) = lines := by
    rw [List.map_map]
    exact (map_congr_left fun line _ => drop_indent isLast line).trans (map_id lines)
  rw [readLines]
  simp only [drop_branch, takeWhile_append_of_pos hindented,
    dropWhile_append_of_pos hindented, htake, append_nil, hdrop]

theorem readLines_sketch (h : HasNames (fun name => '/' ∉ name) forest) :
    readLines (OutlineNode.sketch forest) = OutlineNode.entries forest := by
  induction forest using OutlineNode.forest_induction with
  | nil => rw [OutlineNode.sketch_nil, OutlineNode.entries_nil, readLines_nil]
  | cons name children rest ihchildren ihrest =>
    obtain ⟨hname, hchildren, hrest⟩ := h.cons
    rw [sketch_node, readLines_append (head?_sketch_not_indented rest), ihchildren hchildren,
      ihrest hrest, labelName_labelOf hname, getLast?_labelOf hname, OutlineNode.entries_cons]

/-! ## The root -/

theorem getLast?_indent_append (hne : line ≠ []) :
    (indent isLast ++ line).getLast? = line.getLast? := by
  obtain ⟨c, hlast⟩ := ne_none_iff_exists'.mp (mt getLast?_eq_none_iff.mp hne)
  rw [getLast?_append, hlast, some_or]

theorem sketch_ne_nil (hline : line ∈ OutlineNode.sketch forest) : line ≠ [] := by
  induction forest using OutlineNode.forest_induction generalizing line with
  | nil =>
    rw [OutlineNode.sketch_nil] at hline
    cases hline
  | cons name children rest ihchildren ihrest =>
    rw [sketch_node, mem_cons, mem_append, List.mem_map] at hline
    obtain rfl | ⟨inner, hinner, rfl⟩ | hlater := hline
    · cases rest.isEmpty <;> exact cons_ne_nil _ _
    · exact append_ne_nil_of_right_ne_nil _ (ihchildren hinner)
    · exact ihrest hlater

/-- Indented lines without a root among them have none in front of other lines either. -/
theorem hasRoot_indent_append (hne : ∀ line ∈ lines, line ≠ []) (h : hasRoot lines = false)
    (hlater : hasRoot later = false) :
    hasRoot (lines.map (indent isLast ++ ·) ++ later) = false := by
  induction lines with
  | nil => exact hlater
  | cons line lines ih =>
    rw [forall_mem_cons] at hne
    rw [hasRoot, Bool.or_eq_false_iff] at h
    rw [map_cons, cons_append, hasRoot, ih hne.2 h.2, Bool.or_false,
      getLast?_indent_append hne.1]
    cases lines with
    | nil =>
      have hlast : (line.getLast? == some '/') = false := by simpa using h.1
      rw [hlast, Bool.false_and]
    | cons next lines =>
      rw [map_cons, cons_append, head?_cons, any_some,
        isIndented_indent, Bool.not_true, Bool.and_false]

/-- In a drawing every directory has something indented below it. -/
theorem hasRoot_sketch (h : HasNames (fun name => '/' ∉ name) forest) :
    hasRoot (OutlineNode.sketch forest) = false := by
  induction forest using OutlineNode.forest_induction with
  | nil => rw [OutlineNode.sketch_nil]; rfl
  | cons name children rest ihchildren ihrest =>
    obtain ⟨hname, hchildren, hrest⟩ := h.cons
    rw [sketch_node, hasRoot, hasRoot_indent_append (fun line => sketch_ne_nil)
      (ihchildren hchildren) (ihrest hrest), Bool.or_false]
    cases children with
    | nil =>
      have hlast : ((branch rest.isEmpty ++ labelOf name false).getLast? == some '/') = false := by
        rw [beq_eq_false_iff_ne]
        intro hslash
        obtain hbranch | hlabel := mem_append.mp (mem_of_getLast? hslash)
        · exact absurd (branch_subset _ hbranch) (by decide)
        · exact hname (by simpa [labelOf] using hlabel)
      exact Bool.and_eq_false_imp.mpr fun hslash => absurd hslash (by simpa using hlast)
    | cons node children =>
      obtain ⟨first, below⟩ := node
      rw [sketch_node, map_cons, cons_append, head?_cons, any_some,
        isIndented_indent, Bool.not_true, Bool.and_false]

theorem belowRoot_append (front : List Text) (last : Text)
    (hlater : later.head?.any isIndented = false) (h : hasRoot later = false) :
    belowRoot (front ++ (last ++ ['/']) :: later) = later := by
  have hroot : ∀ front : List Text, hasRoot (front ++ (last ++ ['/']) :: later) = true := by
    intro front
    induction front with
    | nil => simp [hasRoot, hlater]
    | cons line front ih => rw [cons_append, hasRoot, ih, Bool.or_true]
  induction front with
  | nil => rw [nil_append, belowRoot, h, if_neg Bool.false_ne_true]
  | cons line front ih => rw [cons_append, belowRoot, hroot front, if_pos rfl, ih]

/-! ## Lines and entries -/

/-- A line shows an entry: behind one unit of the drawing for each of its names stands its label. -/
def Shows (line : Text) (entry : OutlineEntry) : Prop :=
  ∃ lead, line = lead ++ entry.label ∧ lead.length = 4 * entry.parts.length ∧ lead ⊆ glyphs

theorem Shows.under {entry : OutlineEntry} (h : Shows line entry) (hne : entry.parts ≠ [])
    (isLast : Bool) (name : Text) : Shows (indent isLast ++ line) (entry.under name) := by
  obtain ⟨lead, rfl, hlength, hlead⟩ := h
  obtain ⟨first, others, hparts⟩ := exists_cons_of_ne_nil hne
  refine ⟨indent isLast ++ lead, ?_, ?_, append_subset.mpr ⟨indent_subset isLast, hlead⟩⟩
  · simp [OutlineEntry.label, OutlineEntry.under, hparts]
  · have hindent : (indent isLast).length = 4 := by cases isLast <;> rfl
    rw [length_append, hindent, hlength, OutlineEntry.under, length_cons]
    omega

theorem shows_sketch (forest : List OutlineNode) :
    Forall₂ (fun line entry => entry.parts ≠ [] ∧ Shows line entry)
      (OutlineNode.sketch forest) (OutlineNode.entries forest) := by
  induction forest using OutlineNode.forest_induction with
  | nil =>
    rw [OutlineNode.sketch_nil, OutlineNode.entries_nil]
    exact Forall₂.nil
  | cons name children rest ihchildren ihrest =>
    have hbranch : (branch rest.isEmpty).length = 4 := by cases rest.isEmpty <;> rfl
    rw [sketch_node, OutlineNode.entries_cons]
    refine Forall₂.cons ⟨by simp, ?_⟩ (rel_append ?_ ihrest)
    · exact ⟨branch rest.isEmpty, by simp [OutlineEntry.label, labelOf], hbranch, branch_subset _⟩
    · rw [forall₂_map_left_iff, forall₂_map_right_iff]
      apply ihchildren.imp
      rintro line entry ⟨hne, hshows⟩
      exact ⟨cons_ne_nil _ _, hshows.under hne _ name⟩

theorem notMem_sketch (h : HasNames (fun name => '\n' ∉ name) forest)
    (hline : line ∈ OutlineNode.sketch forest) : '\n' ∉ line := by
  induction forest using OutlineNode.forest_induction generalizing line with
  | nil =>
    rw [OutlineNode.sketch_nil] at hline
    cases hline
  | cons name children rest ihchildren ihrest =>
    obtain ⟨hname, hchildren, hrest⟩ := h.cons
    rw [sketch_node, mem_cons, mem_append, List.mem_map] at hline
    obtain rfl | ⟨inner, hinner, rfl⟩ | hlater := hline
    · intro hmem
      obtain hbranch | hlabel := mem_append.mp hmem
      · exact absurd (branch_subset _ hbranch) (by decide)
      · obtain hlabel | hslash := mem_append.mp hlabel
        · exact hname hlabel
        · cases children.isEmpty <;> simp at hslash
    · intro hmem
      obtain hindent | hmem := mem_append.mp hmem
      · exact absurd (indent_subset _ hindent) (by decide)
      · exact ihchildren hchildren hinner hmem
    · exact ihrest hrest hlater

/-! ## Outlines are read back -/

theorem hasNames_arrange_ofPaths {paths : List Text}
    (h : ∀ path ∈ paths, ∀ part ∈ splitOn '/' path, kind part) :
    HasNames kind (OutlineNode.arrange (OutlineNode.ofPaths paths)) := by
  intro parts hleads part hpart
  rw [OutlineNode.leads_arrange, OutlineNode.leads_ofPaths_iff (ne_nil_of_mem hpart)] at hleads
  obtain ⟨path, hpath, hlead⟩ := hleads
  exact h path hpath part (hlead.subset hpart)

theorem hasNames_slash (paths : List Text) :
    HasNames (fun name => '/' ∉ name) (OutlineNode.arrange (OutlineNode.ofPaths paths)) :=
  hasNames_arrange_ofPaths fun _ _ _ hpart => notMem_of_mem_splitOn hpart

variable {root : Text} {paths : List Text}

theorem splitOn_renderOutline (h : ∀ path ∈ paths, '\n' ∉ path) :
    splitOn '\n' (renderOutline root paths) = splitOn '\n' (root ++ ['/']) ++
      OutlineNode.sketch (OutlineNode.arrange (OutlineNode.ofPaths paths)) := by
  have hnames := hasNames_arrange_ofPaths fun path hpath part hpart hmem =>
    h path hpath (subset_of_mem_splitOn hpart hmem)
  rw [OutlineNode.renderOutline_eq]
  exact splitOn_joinWith_cons _ fun line hline => notMem_sketch hnames hline

theorem read_renderOutline (h : ∀ path ∈ paths, '\n' ∉ path) :
    read (renderOutline root paths) =
      OutlineNode.entries (OutlineNode.arrange (OutlineNode.ofPaths paths)) := by
  have hslash := hasNames_slash paths
  obtain ⟨front, last, hroot⟩ := exists_splitOn_concat (by decide : '/' ≠ '\n') root
  rw [read, splitOn_renderOutline h, hroot, append_assoc, singleton_append,
    belowRoot_append front last (head?_sketch_not_indented _) (hasRoot_sketch hslash),
    readLines_sketch hslash]

end Outline

end SourceAtlas
