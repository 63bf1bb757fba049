import SourceAtlas.Proofs.Entries
import SourceAtlas.Proofs.FileTree.Access

/-!
# Ordered file trees

In an ordered tree the names of every directory increase, so a name stands for one entry. Such a tree
is known by its view, and it stays ordered whatever is put into it. The second part holds for other
properties of directories as well.
-/

namespace SourceAtlas.FileTree

open List Option

variable {tree node child after : FileTree} {entries others : List (Text × FileTree)} {name : Text}
  {place : List Text}

/-- A property of trees that a directory has when its entries have it. -/
@[elab_as_elim]
theorem inductionOn {motive : FileTree → Prop} (file : ∀ content, motive (.file content))
    (locked : ∀ problem, motive (.locked problem)) (link : ∀ target, motive (.link target))
    (directory : ∀ entries, (∀ entry ∈ entries, motive entry.2) → motive (.directory entries)) :
    ∀ tree, motive tree
  | .file content => file content
  | .locked problem => locked problem
  | .link target => link target
  | .directory entries =>
    directory entries fun entry _hentry => inductionOn file locked link directory entry.2
termination_by tree => sizeOf tree
decreasing_by
  obtain ⟨name, node⟩ := entry
  have hsize := sizeOf_lt_of_mem _hentry
  simp only [Prod.mk.sizeOf_spec, FileTree.directory.sizeOf_spec] at hsize ⊢
  omega

theorem at?_singleton (entries : List (Text × FileTree)) (name : Text) :
    (directory entries).at? [name] = entries.lookup name :=
  (lookup_eq_at? (at?_nil (directory entries)) name).symm

/-! ## Properties of every directory -/

def EachDirectory (property : List (Text × FileTree) → Prop) (tree : FileTree) : Prop :=
  ∀ place entries, tree.at? place = some (.directory entries) → property entries

section EachDirectory

variable {property : List (Text × FileTree) → Prop}

theorem eachDirectory_file (content : Bytes) : (file content).EachDirectory property := by
  intro place entries h
  cases place <;> cases h

theorem EachDirectory.of_at? (h : tree.EachDirectory property) (hnode : tree.at? place = some node) :
    node.EachDirectory property := by
  intro rest entries hentries
  refine h (place ++ rest) entries ?_
  rw [at?_append, hnode]
  exact hentries

theorem EachDirectory.of_lookup (h : (directory entries).EachDirectory property)
    (hentry : entries.lookup name = some child) : child.EachDirectory property :=
  h.of_at? ((at?_singleton entries name).trans hentry)

theorem eachDirectory_directory (hentries : property entries)
    (hnodes : ∀ name child, entries.lookup name = some child → child.EachDirectory property) :
    (directory entries).EachDirectory property := by
  intro place others h
  cases place with
  | nil =>
    obtain rfl := directory.inj (some.inj h)
    exact hentries
  | cons name rest =>
    obtain ⟨child, hchild, hothers⟩ := bind_eq_some_iff.mp h
    exact hnodes name child hchild rest others hothers

theorem eachDirectory_of_mem (hentries : property entries)
    (hnodes : ∀ entry ∈ entries, entry.2.EachDirectory property) :
    (directory entries).EachDirectory property :=
  eachDirectory_directory hentries fun _ _ hchild => hnodes _ (mem_of_lookup hchild)

theorem eachDirectory_empty (hnil : property []) : empty.EachDirectory property :=
  eachDirectory_directory hnil nofun

theorem EachDirectory.put (h : tree.EachDirectory property) (hnode : node.EachDirectory property)
    (hnil : property [])
    (hput : ∀ name ∈ place, ∀ child entries, property entries →
      property (putEntry name child entries)) :
    (tree.put place node).EachDirectory property := by
  induction place generalizing tree with
  | nil => cases tree <;> exact hnode
  | cons name rest ih =>
    rw [forall_mem_cons] at hput
    cases tree with
    | file content => exact h
    | locked problem => exact h
    | link target => exact h
    | directory entries =>
      rw [FileTree.put]
      refine eachDirectory_directory (hput.1 _ _ (h [] entries rfl)) fun other child hchild => ?_
      by_cases hother : other = name
      · subst hother
        rw [lookup_putEntry_self] at hchild
        obtain rfl := some.inj hchild
        refine ih ?_ hput.2
        cases hold : entries.lookup other with
        | none => exact eachDirectory_empty hnil
        | some old => exact h.of_lookup hold
      · rw [lookup_putEntry_of_ne hother] at hchild
        exact h.of_lookup hchild

end EachDirectory

def Ordered (tree : FileTree) : Prop :=
  tree.EachDirectory fun entries => (entries.map Prod.fst).Pairwise (· < ·)

/-! ## Increasing names -/

theorem nodup_of_increasing {names : List Text} (h : names.Pairwise (· < ·)) : names.Nodup := by
  refine h.imp ?_
  rintro name _ hlt rfl
  exact List.lt_irrefl name hlt

theorem lookup_eq_none_of_lt (h : ∀ other ∈ entries.map Prod.fst, name < other) :
    entries.lookup name = none := by
  rw [lookup_eq_none_iff]
  intro entry hentry
  rw [bne_iff_ne]
  rintro rfl
  exact List.lt_irrefl _ (h _ (mem_map_of_mem hentry))

/-- Entries with increasing names start with the smallest name that is found in them. -/
theorem not_lt_of_lookup_eq {key : Text} {node child : FileTree}
    (hentries : ∀ other ∈ entries.map Prod.fst, name < other)
    (h : ∀ other, lookup other ((name, node) :: entries) =
      lookup other ((key, child) :: others)) : ¬key < name := by
  intro hlt
  have hnone : lookup key ((name, node) :: entries) = none := by
    apply lookup_eq_none_of_lt
    rw [map_cons, forall_mem_cons]
    exact ⟨hlt, fun other hother => List.lt_trans hlt (hentries other hother)⟩
  have hfirst := h key
  rw [hnone, lookup_cons_self] at hfirst
  cases hfirst

/-- Entries with increasing names are known by what is looked up in them. -/
theorem eq_of_lookup_eq (hentries : (entries.map Prod.fst).Pairwise (· < ·))
    (hothers : (others.map Prod.fst).Pairwise (· < ·))
    (h : ∀ name, entries.lookup name = others.lookup name) : entries = others := by
  induction entries generalizing others with
  | nil =>
    cases others with
    | nil => rfl
    | cons entry others =>
      have hfirst := h entry.1
      rw [lookup_nil, lookup_cons_self] at hfirst
      cases hfirst
  | cons entry entries ih =>
    obtain ⟨name, node⟩ := entry
    cases others with
    | nil =>
      have hfirst := h name
      rw [lookup_nil, lookup_cons_self] at hfirst
      cases hfirst
    | cons other others =>
      obtain ⟨key, child⟩ := other
      rw [map_cons, pairwise_cons] at hentries hothers
      obtain rfl : name = key := List.le_antisymm (not_lt_of_lookup_eq hentries.1 h)
        (not_lt_of_lookup_eq hothers.1 fun other => (h other).symm)
      have hnode := h name
      rw [lookup_cons_self, lookup_cons_self] at hnode
      obtain rfl := some.inj hnode
      rw [ih hentries.2 hothers.2]
      intro other
      by_cases hother : other = name
      · subst hother
        rw [lookup_eq_none_of_lt hentries.1, lookup_eq_none_of_lt hothers.1]
      · have hrest := h other
        rwa [lookup_cons_of_ne hother, lookup_cons_of_ne hother] at hrest

theorem mem_names_putEntry {other : Text} (h : other ∈ (putEntry name node entries).map Prod.fst) :
    other = name ∨ other ∈ entries.map Prod.fst := by
  induction entries with
  | nil => exact Or.inl (mem_singleton.mp h)
  | cons entry entries ih =>
    obtain ⟨key, child⟩ := entry
    rw [putEntry] at h
    rw [map_cons, mem_cons]
    by_cases hkey : key = name
    · rw [if_pos hkey, map_cons, mem_cons] at h
      exact h.imp_right Or.inr
    · rw [if_neg hkey] at h
      by_cases hlt : name < key
      · rwa [if_pos hlt, map_cons, map_cons, mem_cons, mem_cons] at h
      · rw [if_neg hlt, map_cons, mem_cons] at h
        obtain hfirst | hrest := h
        · exact Or.inr (Or.inl hfirst)
        · exact (ih hrest).imp_right Or.inr

theorem increasing_putEntry (name : Text) (node : FileTree)
    (h : (entries.map Prod.fst).Pairwise (· < ·)) :
    ((putEntry name node entries).map Prod.fst).Pairwise (· < ·) := by
  induction entries with
  | nil => exact pairwise_singleton ..
  | cons entry entries ih =>
    obtain ⟨key, child⟩ := entry
    rw [map_cons, pairwise_cons] at h
    rw [putEntry]
    by_cases hkey : key = name
    · rw [if_pos hkey, map_cons, pairwise_cons, ← hkey]
      exact h
    · rw [if_neg hkey]
      by_cases hlt : name < key
      · rw [if_pos hlt, map_cons, map_cons, pairwise_cons, forall_mem_cons]
        exact ⟨⟨hlt, fun other hother => List.lt_trans hlt (h.1 other hother)⟩,
          pairwise_cons.mpr h⟩
      · rw [if_neg hlt, map_cons, pairwise_cons]
        refine ⟨fun other hother => ?_, ih h.2⟩
        obtain rfl | hother := mem_names_putEntry hother
        · exact (List.le_iff_lt_or_eq.mp hlt).resolve_right hkey
        · exact h.1 other hother

/-! ## Ordered trees -/

theorem Ordered.increasing (h : (directory entries).Ordered) :
    (entries.map Prod.fst).Pairwise (· < ·) :=
  h [] entries rfl

theorem Ordered.of_at? (h : tree.Ordered) (hnode : tree.at? place = some node) : node.Ordered :=
  EachDirectory.of_at? h hnode

theorem Ordered.lookup_of_mem (h : (directory entries).Ordered) (hmem : (name, child) ∈ entries) :
    entries.lookup name = some child :=
  Entries.lookup_of_mem (nodup_of_increasing h.increasing) hmem

theorem Ordered.put (h : tree.Ordered) (place : List Text) (hnode : node.Ordered) :
    (tree.put place node).Ordered :=
  EachDirectory.put h hnode Pairwise.nil fun name _ child _ =>
    increasing_putEntry name child

theorem ordered_empty : empty.Ordered :=
  eachDirectory_empty Pairwise.nil

theorem ordered_file (content : Bytes) : (file content).Ordered :=
  eachDirectory_file content

theorem Ordered.write (h : tree.Ordered) (here path : Path) (content : Bytes)
    (halt : Option Stop) : (tree.write here path content halt).tree.Ordered := by
  obtain ⟨fault, hwrite⟩ | ⟨spot, front, fault, -, -, -, -, -, hwrite⟩ :=
    write_cases tree here path content halt
  · rw [hwrite]
    exact h
  · rw [hwrite]
    exact h.put _ (ordered_file front)

variable {refuses : Path → Option FileProblem}

theorem Ordered.makeDirectory {here path : Path} {made : FileTree} (h : tree.Ordered)
    (hmade : makeDirectory refuses tree here path = .ok made) : made.Ordered := by
  obtain ⟨names, name, place, entries, -, -, -, -, -, rfl⟩ := makeDirectory_eq_ok_iff.mp hmade
  exact h.put _ ordered_empty

theorem Ordered.makeChain (h : tree.Ordered) (here : Path) (absolute : Bool) (names : List Text) :
    (makeChain refuses tree here absolute names).tree.Ordered := by
  induction names with
  | nil => exact h
  | cons name above ih =>
    have hsettle : ∀ {tree : FileTree} {path : Path} {fault : WriteFault}, tree.Ordered →
        (if tree.isDirectoryAt here path then Change.mk tree none
          else Change.mk tree (some fault)).tree.Ordered := by
      intro tree path fault htree
      split <;> exact htree
    rw [FileTree.makeChain]
    dsimp only
    split
    · rename_i made hmade
      exact h.makeDirectory hmade
    · generalize FileTree.makeChain refuses tree here absolute above = chain at ih ⊢
      obtain ⟨reached, fault⟩ := chain
      cases fault with
      | some fault => exact ih
      | none =>
        dsimp only
        split
        · rename_i made hmade
          exact Ordered.makeDirectory ih hmade
        · exact hsettle ih
    · exact hsettle h

theorem Ordered.makeDirectories (h : tree.Ordered) (refuses : Path → Option FileProblem)
    (here path : Path) :
    (makeDirectories refuses tree here path).tree.Ordered := by
  unfold FileTree.makeDirectories
  split
  · exact h
  · exact h.makeChain here path.absolute path.parts.reverse

theorem Ordered.eq_of_view_eq (h : tree.Ordered) (hafter : after.Ordered)
    (hview : after.view = tree.view) : after = tree := by
  induction tree using inductionOn generalizing after with
  | file content =>
    have htop : after.view [] = some (.file content) := congrFun hview []
    exact some.inj ((at?_nil after).symm.trans (view_eq_file_iff.mp htop))
  | locked problem =>
    have htop : after.view [] = some (.locked problem) := congrFun hview []
    exact some.inj ((at?_nil after).symm.trans (view_eq_locked_iff.mp htop))
  | link target =>
    have htop : after.view [] = some (.link target) := congrFun hview []
    exact some.inj ((at?_nil after).symm.trans (view_eq_link_iff.mp htop))
  | directory entries ih =>
    have htop : after.view [] = some .directory := congrFun hview []
    obtain ⟨others, hothers⟩ := view_eq_directory_iff.mp htop
    obtain rfl := some.inj ((at?_nil after).symm.trans hothers)
    refine congrArg directory (eq_of_lookup_eq hafter.increasing h.increasing fun name => ?_)
    -- below a name both trees have the view of its entry, if there is one
    have hbelow : ∀ rest, (others.lookup name).bind (·.view rest) =
        (entries.lookup name).bind (·.view rest) := by
      intro rest
      rw [← view_cons, ← view_cons, hview]
    have hself : ∀ node : FileTree, node.view [] = some node.label :=
      fun node => view_of_at? (at?_nil node)
    cases hother : others.lookup name with
    | none =>
      cases hentry : entries.lookup name with
      | none => rfl
      | some child =>
        have hnil := hbelow []
        rw [hother, hentry, bind_none, bind_some, hself] at hnil
        cases hnil
    | some other =>
      cases hentry : entries.lookup name with
      | none =>
        have hnil := hbelow []
        rw [hother, hentry, bind_none, bind_some, hself] at hnil
        cases hnil
      | some child =>
        refine congrArg some (ih _ (mem_of_lookup hentry) (EachDirectory.of_lookup h hentry)
          (EachDirectory.of_lookup hafter hother) ?_)
        funext rest
        have hrest := hbelow rest
        rwa [hother, hentry, bind_some, bind_some] at hrest

theorem view_append_of_at? (h : tree.at? place = some node) (rest : List Text) :
    tree.view (place ++ rest) = node.view rest := by
  unfold view
  rw [at?_append, h]
  rfl

theorem Ordered.at?_eq_of_view_eq (h : tree.Ordered) (hafter : after.Ordered)
    (hview : ∀ rest, after.view (place ++ rest) = tree.view (place ++ rest)) :
    after.at? place = tree.at? place := by
  have htop := hview []
  rw [append_nil] at htop
  cases hnode : tree.at? place with
  | none => exact view_eq_none_iff.mp (htop.trans (view_eq_none_iff.mpr hnode))
  | some node =>
    obtain ⟨other, hother, -⟩ := map_eq_some_iff.mp (htop.trans (view_of_at? hnode))
    rw [hother]
    refine congrArg some (eq_of_view_eq (h.of_at? hnode) (hafter.of_at? hother)
      (funext fun rest => ?_))
    rw [← view_append_of_at? hother, ← view_append_of_at? hnode, hview]

end SourceAtlas.FileTree
