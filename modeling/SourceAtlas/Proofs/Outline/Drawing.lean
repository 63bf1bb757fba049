import SourceAtlas.Proofs.Outline.Forest

/-!
# Entries and drawings of a forest

Every node of a forest is an entry, and a directory comes before its contents. A drawing has one line
for each entry. Sorting first and drawing afterwards is the same as drawing the sorted forest.
-/

namespace SourceAtlas

open List

/-- One line of an outline, with the names that lead to it. -/
structure OutlineEntry where
  parts : List Text
  isDirectory : Bool
  deriving DecidableEq

namespace OutlineEntry

def under (name : Text) (entry : OutlineEntry) : OutlineEntry :=
  { entry with parts := name :: entry.parts }

def path (entry : OutlineEntry) : Text :=
  joinWith ['/'] entry.parts

def label (entry : OutlineEntry) : Text :=
  entry.parts.getLast?.getD [] ++ if entry.isDirectory then ['/'] else []

end OutlineEntry

namespace OutlineNode

variable {name part : Text} {parts : List Text} {entry : OutlineEntry}
  {children forest rest : List OutlineNode}

/-! ## Entries -/

def entries : List OutlineNode → List OutlineEntry
  | [] => []
  | .node name children :: rest =>
    ⟨[name], !children.isEmpty⟩ :: ((entries children).map (.under name) ++ entries rest)

theorem entries_nil : entries [] = [] := by
  rw [entries]

theorem entries_cons : entries (.node name children :: rest) =
    ⟨[name], !children.isEmpty⟩ :: ((entries children).map (.under name) ++ entries rest) := by
  rw [entries]

theorem exists_leads_singleton_iff : (∃ name, Leads [name] forest) ↔ forest.isEmpty = false := by
  cases forest with
  | nil => simp
  | cons node rest =>
    obtain ⟨name, children⟩ := node
    simp only [isEmpty_cons, iff_true]
    exact ⟨name, leads_cons_cons.mpr (Or.inl ⟨rfl, leads_nil children⟩)⟩

theorem leads_cons_self (h : ¬Leads [name] rest) :
    Leads (name :: parts) (.node name children :: rest) ↔ Leads parts children := by
  have hrest : ¬Leads (name :: parts) rest := fun hleads => h hleads.head
  simp [leads_cons_cons, hrest]

theorem leads_cons_of_ne (h : part ≠ name) :
    Leads (part :: parts) (.node name children :: rest) ↔ Leads (part :: parts) rest := by
  simp [leads_cons_cons, h]

/-- The entries are the nodes that the forest leads to; a directory is one that it leads beyond. -/
theorem mem_entries_iff (h : Distinct forest) : entry ∈ entries forest ↔
    entry.parts ≠ [] ∧ Leads entry.parts forest ∧
      (entry.isDirectory = true ↔ ∃ name, Leads (entry.parts ++ [name]) forest) := by
  obtain ⟨parts, isDirectory⟩ := entry
  induction forest using forest_induction generalizing parts with
  | nil => cases parts <;> simp [entries_nil]
  | cons name children rest ihchildren ihrest =>
    obtain ⟨hname, hchildren, hrest⟩ := distinct_cons.mp h
    have hbelow := fun parts => ihchildren hchildren parts
    have hbeside := fun parts => ihrest hrest parts
    rw [entries_cons, mem_cons, mem_append, mem_map]
    cases parts with
    | nil => simp [hbeside, OutlineEntry.under]
    | cons part parts =>
      by_cases hpart : part = name
      · subst hpart
        have hnone : ⟨part :: parts, isDirectory⟩ ∉ entries rest :=
          fun hmem => hname ((hbeside _).mp hmem).2.1.head
        have hunder : (∃ below ∈ entries children, below.under part =
            ⟨part :: parts, isDirectory⟩) ↔ ⟨parts, isDirectory⟩ ∈ entries children := by
          constructor
          · rintro ⟨⟨inner, kind⟩, hmem, heq⟩
            cases heq
            exact hmem
          · exact fun hmem => ⟨_, hmem, rfl⟩
        simp only [hunder, hbelow, hnone, cons_append, leads_cons_self hname]
        cases parts with
        | nil =>
          simp only [nil_append, exists_leads_singleton_iff]
          cases isDirectory <;> cases children.isEmpty <;> simp
        | cons next parts => simp
      · simp [hbeside, OutlineEntry.under, hpart, Ne.symm hpart, leads_cons_of_ne]

/-- No entry leads on to one further up, so each stands there once and a directory before its
contents. -/
theorem pairwise_entries (h : Distinct forest) :
    (entries forest).Pairwise fun earlier later => ¬later.parts <+: earlier.parts := by
  induction forest using forest_induction with
  | nil =>
    rw [entries_nil]
    exact Pairwise.nil
  | cons name children rest ihchildren ihrest =>
    obtain ⟨hname, hchildren, hrest⟩ := distinct_cons.mp h
    -- what stands beside a directory starts with another name
    have hbeside : ∀ later ∈ entries rest, ∀ more, ¬later.parts <+: name :: more := by
      intro later hlater more hlead
      obtain ⟨hne, hleads, -⟩ := (mem_entries_iff hrest).mp hlater
      obtain ⟨part, parts, hparts⟩ := exists_cons_of_ne_nil hne
      rw [hparts] at hlead hleads
      obtain ⟨rfl, -⟩ := cons_prefix_cons.mp hlead
      exact hname hleads.head
    rw [entries_cons, pairwise_cons, pairwise_append]
    refine ⟨?_, ?_, ihrest hrest, ?_⟩
    · intro later hlater hlead
      obtain hinner | hlater := mem_append.mp hlater
      · obtain ⟨below, hbelow, rfl⟩ := mem_map.mp hinner
        obtain ⟨hne, -⟩ := (mem_entries_iff hchildren).mp hbelow
        exact hne (prefix_nil.mp (cons_prefix_cons.mp hlead).2)
      · exact hbeside later hlater [] hlead
    · rw [pairwise_map]
      apply (ihchildren hchildren).imp
      intro earlier later hnot hlead
      exact hnot (cons_prefix_cons.mp hlead).2
    · intro earlier hearlier later hlater
      obtain ⟨below, -, rfl⟩ := mem_map.mp hearlier
      exact hbeside later hlater below.parts

/-! ## Drawing in the given order -/

def sketch : List OutlineNode → List Text
  | [] => []
  | .node name children :: rest =>
    OutlineBlock.draw rest.isEmpty
        ⟨children.isEmpty, lower name, if children.isEmpty then name else name ++ ['/'],
          sketch children⟩ ++
      sketch rest

def plainBlock : OutlineNode → OutlineBlock
  | .node name children =>
    ⟨children.isEmpty, lower name, if children.isEmpty then name else name ++ ['/'],
      sketch children⟩

theorem sketch_nil : sketch [] = [] := by
  rw [sketch]

theorem sketch_cons (node : OutlineNode) (rest : List OutlineNode) :
    sketch (node :: rest) = node.plainBlock.draw rest.isEmpty ++ sketch rest := by
  obtain ⟨name, children⟩ := node
  rw [sketch, plainBlock]

theorem drawAll_map_plainBlock (forest : List OutlineNode) :
    OutlineBlock.drawAll (forest.map plainBlock) = sketch forest := by
  induction forest with
  | nil => exact sketch_nil.symm
  | cons node rest ih =>
    rw [sketch_cons, ← ih]
    cases rest with
    | nil => exact (append_nil _).symm
    | cons next rest => rfl

/-! ## Sorting -/

def inOrder (forest : List OutlineNode) : List OutlineNode :=
  forest.mergeSort fun first second => first.plainBlock.precedes second.plainBlock

def arrangeBelow : List OutlineNode → List OutlineNode
  | [] => []
  | .node name children :: rest => .node name (inOrder (arrangeBelow children)) :: arrangeBelow rest

theorem arrangeBelow_nil : arrangeBelow [] = [] := by
  rw [arrangeBelow]

theorem arrangeBelow_cons : arrangeBelow (.node name children :: rest) =
    .node name (inOrder (arrangeBelow children)) :: arrangeBelow rest := by
  rw [arrangeBelow]

def arrange (forest : List OutlineNode) : List OutlineNode :=
  inOrder (arrangeBelow forest)

theorem inOrder_perm (forest : List OutlineNode) : (inOrder forest).Perm forest :=
  mergeSort_perm ..

theorem sketch_inOrder (forest : List OutlineNode) : sketch (inOrder forest) =
    OutlineBlock.drawAll ((forest.map plainBlock).mergeSort OutlineBlock.precedes) := by
  rw [← drawAll_map_plainBlock, inOrder, map_mergeSort]
  exact fun first _ second _ => rfl

theorem isEmpty_inOrder_arrangeBelow (forest : List OutlineNode) :
    (inOrder (arrangeBelow forest)).isEmpty = forest.isEmpty := by
  cases forest with
  | nil => rw [arrangeBelow_nil, perm_nil.mp (inOrder_perm [])]
  | cons node rest =>
    obtain ⟨name, children⟩ := node
    rw [arrangeBelow_cons, isEmpty_cons, isEmpty_eq_false_iff]
    intro hnil
    have hperm := inOrder_perm (.node name (inOrder (arrangeBelow children)) :: arrangeBelow rest)
    rw [hnil] at hperm
    cases nil_perm.mp hperm

theorem blocks_eq (forest : List OutlineNode) :
    blocks forest = (arrangeBelow forest).map plainBlock := by
  induction forest using forest_induction with
  | nil => simp [blocks, arrangeBelow_nil]
  | cons name children rest ihchildren ihrest =>
    rw [blocks, arrangeBelow_cons, map_cons, ihrest, block, plainBlock, sketch_inOrder,
      ihchildren, isEmpty_inOrder_arrangeBelow]

theorem renderOutline_eq (root : Text) (paths : List Text) : renderOutline root paths =
    joinWith ['\n'] ((root ++ ['/']) :: sketch (arrange (ofPaths paths))) := by
  rw [renderOutline, blocks_eq, arrange, sketch_inOrder]

theorem leads_arrangeBelow : Leads parts (arrangeBelow forest) ↔ Leads parts forest := by
  induction forest using forest_induction generalizing parts with
  | nil => rw [arrangeBelow_nil]
  | cons name children rest ihchildren ihrest =>
    cases parts with
    | nil => simp
    | cons part parts =>
      rw [arrangeBelow_cons, leads_cons_cons, leads_cons_cons, leads_perm (inOrder_perm _),
        ihchildren, ihrest]

theorem leads_arrange : Leads parts (arrange forest) ↔ Leads parts forest :=
  (leads_perm (inOrder_perm _)).trans leads_arrangeBelow

theorem Distinct.arrangeBelow (h : Distinct forest) : Distinct (arrangeBelow forest) := by
  induction forest using forest_induction with
  | nil =>
    rw [OutlineNode.arrangeBelow_nil]
    exact h
  | cons name children rest ihchildren ihrest =>
    obtain ⟨hname, hchildren, hrest⟩ := distinct_cons.mp h
    rw [OutlineNode.arrangeBelow_cons, distinct_cons, leads_arrangeBelow,
      distinct_perm (inOrder_perm _)]
    exact ⟨hname, ihchildren hchildren, ihrest hrest⟩

theorem Distinct.arrange (h : Distinct forest) : Distinct (arrange forest) :=
  (distinct_perm (inOrder_perm _)).mpr h.arrangeBelow

end OutlineNode

end SourceAtlas
