import SourceAtlas.Proofs.Outline.Drawing

/-!
# The order of the paths

As long as no two siblings have the same name up to letter case, the order in which paths are
inserted leaves no trace in the drawing, and neither does a path that is there twice.
-/

namespace SourceAtlas

open List

namespace OutlineBlock

variable {first second third : OutlineBlock}

theorem precedes_of_isFile_eq (h : first.isFile = second.isFile) :
    precedes first second = true ↔ ¬second.sortName < first.sortName := by
  simp [precedes, h]

theorem precedes_of_isFile_ne (h : first.isFile ≠ second.isFile) :
    precedes first second = second.isFile := by
  simp [precedes, h]

theorem precedes_antisymm (h : precedes first second = true) (h' : precedes second first = true) :
    first.sortName = second.sortName := by
  by_cases hfile : first.isFile = second.isFile
  · rw [precedes_of_isFile_eq hfile] at h
    rw [precedes_of_isFile_eq hfile.symm] at h'
    exact List.le_antisymm h h'
  · rw [precedes_of_isFile_ne hfile] at h
    rw [precedes_of_isFile_ne (Ne.symm hfile)] at h'
    exact absurd (h'.trans h.symm) hfile

theorem precedes_total (first second : OutlineBlock) :
    (precedes first second || precedes second first) = true := by
  rw [Bool.or_eq_true]
  by_cases hfile : first.isFile = second.isFile
  · rw [precedes_of_isFile_eq hfile, precedes_of_isFile_eq hfile.symm]
    exact List.le_total ..
  · rw [precedes_of_isFile_ne hfile, precedes_of_isFile_ne (Ne.symm hfile)]
    cases hfirst : first.isFile with
    | true => exact Or.inr rfl
    | false =>
      rw [hfirst] at hfile
      exact Or.inl (by simpa using Ne.symm hfile)

theorem precedes_trans (h : precedes first second = true) (h' : precedes second third = true) :
    precedes first third = true := by
  by_cases hfirst : first.isFile = second.isFile
  · by_cases hsecond : second.isFile = third.isFile
    · rw [precedes_of_isFile_eq hfirst] at h
      rw [precedes_of_isFile_eq hsecond] at h'
      rw [precedes_of_isFile_eq (hfirst.trans hsecond)]
      exact List.le_trans h h'
    · rw [precedes_of_isFile_ne hsecond] at h'
      rwa [precedes_of_isFile_ne (hfirst ▸ hsecond)]
  · rw [precedes_of_isFile_ne hfirst] at h
    by_cases hsecond : second.isFile = third.isFile
    · rw [precedes_of_isFile_ne (hsecond ▸ hfirst), ← hsecond]
      exact h
    · rw [precedes_of_isFile_ne hsecond] at h'
      exact absurd (h.trans h'.symm) hsecond

end OutlineBlock

namespace OutlineNode

variable {name : Text} {parts : List Text} {children below forest others : List OutlineNode}

/-- Siblings that have the same name up to letter case are one. -/
def Apart (forest : List OutlineNode) : Prop :=
  ∀ above first second, Leads (above ++ [first]) forest → Leads (above ++ [second]) forest →
    lower first = lower second → first = second

theorem Apart.inside (h : Apart (.node name children :: forest)) : Apart children := by
  intro above first second hfirst hsecond
  apply h (name :: above)
  · exact leads_cons_cons.mpr (Or.inl ⟨rfl, hfirst⟩)
  · exact leads_cons_cons.mpr (Or.inl ⟨rfl, hsecond⟩)

theorem Leads.cons (h : Leads parts forest) (node : OutlineNode) :
    Leads parts (node :: forest) := by
  cases parts with
  | nil => exact leads_nil _
  | cons part parts =>
    obtain ⟨children, hmem, hleads⟩ := h
    exact ⟨children, mem_cons_of_mem node hmem, hleads⟩

theorem Apart.tail {node : OutlineNode} (h : Apart (node :: forest)) : Apart forest := by
  intro above first second hfirst hsecond
  exact h above first second (hfirst.cons node) (hsecond.cons node)

theorem leads_of_mem (h : .node name children ∈ forest) : Leads [name] forest :=
  ⟨children, h, leads_nil children⟩

theorem Distinct.eq_of_mem (h : Distinct forest) (hmem : .node name children ∈ forest)
    (hmem' : .node name below ∈ forest) : children = below := by
  induction forest with
  | nil => cases hmem
  | cons node forest ih =>
    obtain ⟨first, inner⟩ := node
    obtain ⟨hname, -, hforest⟩ := distinct_cons.mp h
    rw [mem_cons, node.injEq] at hmem hmem'
    obtain ⟨rfl, rfl⟩ | hmem := hmem
    · obtain ⟨-, rfl⟩ | hmem' := hmem'
      · rfl
      · exact absurd (leads_of_mem hmem') hname
    · obtain ⟨rfl, -⟩ | hmem' := hmem'
      · exact absurd (leads_of_mem hmem) hname
      · exact ih hforest hmem hmem'

theorem blocks_eq_map (forest : List OutlineNode) : blocks forest = forest.map block := by
  induction forest with
  | nil => rw [blocks]; rfl
  | cons node forest ih => rw [blocks, ih, map_cons]

theorem sortName_block (node : OutlineNode) : node.block.sortName = lower node.name := by
  obtain ⟨name, children⟩ := node
  rw [block]
  rfl

/-- Nodes that no sibling is level with are sorted in one way only. -/
theorem mergeSort_blocks_congr (h : Distinct forest) (hapart : Apart forest)
    (hperm : (blocks forest).Perm (blocks others)) :
    (blocks forest).mergeSort OutlineBlock.precedes =
      (blocks others).mergeSort OutlineBlock.precedes := by
  have hsorted : ∀ list : List OutlineBlock,
      (list.mergeSort OutlineBlock.precedes).Pairwise fun a b => OutlineBlock.precedes a b = true :=
    pairwise_mergeSort (fun _ _ _ => OutlineBlock.precedes_trans) OutlineBlock.precedes_total
  apply Perm.eq_of_pairwise _ (hsorted _) (hsorted _)
  · exact (mergeSort_perm ..).trans (hperm.trans (mergeSort_perm ..).symm)
  · intro first second hfirst hsecond hle hge
    rw [mem_mergeSort] at hfirst hsecond
    rw [← hperm.mem_iff] at hsecond
    rw [blocks_eq_map, mem_map] at hfirst hsecond
    obtain ⟨⟨name, children⟩, hmem, rfl⟩ := hfirst
    obtain ⟨⟨other, below⟩, hmem', rfl⟩ := hsecond
    have hlower := OutlineBlock.precedes_antisymm hle hge
    rw [sortName_block, sortName_block] at hlower
    obtain rfl : name = other :=
      hapart [] name other (leads_of_mem hmem) (leads_of_mem hmem') hlower
    rw [h.eq_of_mem hmem hmem']

theorem isEmpty_congr (hleads : ∀ parts, Leads parts forest ↔ Leads parts others) :
    forest.isEmpty = others.isEmpty := by
  have hexists : (∃ part, Leads [part] forest) ↔ ∃ part, Leads [part] others :=
    exists_congr fun part => hleads [part]
  rw [exists_leads_singleton_iff, exists_leads_singleton_iff] at hexists
  rw [Bool.eq_iff_iff, ← Bool.not_eq_false, ← Bool.not_eq_false, hexists]

theorem block_congr (name : Text) (h : Distinct forest) (hapart : Apart forest)
    (hperm : (blocks forest).Perm (blocks others))
    (hleads : ∀ parts, Leads parts forest ↔ Leads parts others) :
    block (.node name forest) = block (.node name others) := by
  rw [block, block, isEmpty_congr hleads, mergeSort_blocks_congr h hapart hperm]

/-- Beside a node of the same name on both sides, forests lead to the same places. -/
theorem leads_beside_iff (hname : ¬Leads [name] forest) (hother : ¬Leads [name] others)
    (hleads : ∀ parts, Leads parts (.node name children :: forest) ↔
      Leads parts (.node name below :: others)) : Leads parts forest ↔ Leads parts others := by
  cases parts with
  | nil => simp
  | cons part parts =>
    by_cases hpart : part = name
    · subst hpart
      exact iff_of_false (fun hlead => hname hlead.head) fun hlead => hother hlead.head
    · have hsame := hleads (part :: parts)
      rwa [leads_cons_of_ne hpart, leads_cons_of_ne hpart] at hsame

theorem perm_blocks (h : Distinct forest) (hothers : Distinct others) (hapart : Apart forest)
    (hleads : ∀ parts, Leads parts forest ↔ Leads parts others) :
    (blocks forest).Perm (blocks others) := by
  induction forest using forest_induction generalizing others with
  | nil =>
    cases others with
    | nil => exact List.Perm.refl _
    | cons node others =>
      obtain ⟨name, children⟩ := node
      exact absurd ((hleads [name]).mpr (leads_of_mem mem_cons_self)) not_leads_cons_nil
  | cons name children rest ihchildren ihrest =>
    obtain ⟨hname, hchildren, hrest⟩ := distinct_cons.mp h
    -- the node of that name on the other side goes to the front
    obtain ⟨below, hmem, -⟩ := (hleads [name]).mp (leads_of_mem mem_cons_self)
    obtain ⟨before, after, rfl⟩ := append_of_mem hmem
    have hfront : (before ++ .node name below :: after).Perm
        (.node name below :: (before ++ after)) := perm_middle
    have hboth : ∀ parts, Leads parts (.node name children :: rest) ↔
        Leads parts (.node name below :: (before ++ after)) :=
      fun parts => (hleads parts).trans (leads_perm hfront)
    obtain ⟨hother, hbelow, hbeside⟩ := distinct_cons.mp ((distinct_perm hfront).mp hothers)
    have hinside : ∀ parts, Leads parts children ↔ Leads parts below := by
      intro parts
      have hsame := hboth (name :: parts)
      rwa [leads_cons_self hname, leads_cons_self hother] at hsame
    have hblock := block_congr name hchildren hapart.inside
      (ihchildren hchildren hbelow hapart.inside hinside) hinside
    have htail := ihrest hrest hbeside hapart.tail
      fun parts => leads_beside_iff hname hother hboth
    have hmoved := hfront.map block
    rw [blocks_eq_map] at htail ⊢
    rw [blocks_eq_map] at htail ⊢
    rw [map_cons, hblock]
    exact (htail.cons _).trans hmoved.symm

end OutlineNode

/-- No two distinct siblings have the same name up to letter case. -/
def SiblingsApart (paths : List Text) : Prop :=
  ∀ path ∈ paths, ∀ other ∈ paths, ∀ above first second,
    above ++ [first] <+: splitOn '/' path → above ++ [second] <+: splitOn '/' other →
      lower first = lower second → first = second

theorem SiblingsApart.apart {paths : List Text} (h : SiblingsApart paths) :
    OutlineNode.Apart (OutlineNode.ofPaths paths) := by
  intro above first second hfirst hsecond
  rw [OutlineNode.leads_ofPaths_iff (by simp)] at hfirst hsecond
  obtain ⟨path, hpath, hlead⟩ := hfirst
  obtain ⟨other, hother, hlead'⟩ := hsecond
  exact h path hpath other hother above first second hlead hlead'

theorem renderOutline_congr {paths others : List Text} (hapart : SiblingsApart paths)
    (h : ∀ path, path ∈ others ↔ path ∈ paths) (root : Text) :
    renderOutline root others = renderOutline root paths := by
  have hleads : ∀ parts, OutlineNode.Leads parts (OutlineNode.ofPaths paths) ↔
      OutlineNode.Leads parts (OutlineNode.ofPaths others) := by
    intro parts
    by_cases hne : parts = []
    · simp [hne]
    · simp only [OutlineNode.leads_ofPaths_iff hne, h]
  have hperm := OutlineNode.perm_blocks (OutlineNode.distinct_ofPaths paths)
    (OutlineNode.distinct_ofPaths others) hapart.apart hleads
  have hsorted := OutlineNode.mergeSort_blocks_congr (OutlineNode.distinct_ofPaths paths)
    hapart.apart hperm
  unfold renderOutline
  dsimp only
  rw [hsorted]

end SourceAtlas
