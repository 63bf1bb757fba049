import SourceAtlas.Outline
import SourceAtlas.Proofs.Text.Split
import Mathlib.Data.List.Nodup

/-!
# The forest of a list of paths

Siblings have distinct names, and the forest of a list of paths leads along these paths and nowhere
else.
-/

namespace SourceAtlas

namespace OutlineNode

variable {name part : Text} {parts path : List Text} {children forest others : List OutlineNode}

theorem forest_induction {motive : List OutlineNode → Prop} (nil : motive [])
    (cons : ∀ name children rest, motive children → motive rest →
      motive (.node name children :: rest)) : ∀ forest, motive forest
  | [] => nil
  | .node name children :: rest =>
    cons name children rest (forest_induction nil cons children) (forest_induction nil cons rest)

/-! ## Where a forest leads -/

/-- Whether names lead from the top of a forest down to a node. -/
def Leads : List Text → List OutlineNode → Prop
  | [], _ => True
  | part :: rest, forest => ∃ children, .node part children ∈ forest ∧ Leads rest children

@[simp] theorem leads_nil (forest : List OutlineNode) : Leads [] forest := trivial

@[simp] theorem not_leads_cons_nil : ¬Leads (part :: parts) [] := by
  simp [Leads]

theorem leads_cons_cons : Leads (part :: parts) (.node name children :: forest) ↔
    (part = name ∧ Leads parts children) ∨ Leads (part :: parts) forest := by
  simp only [Leads, List.mem_cons, node.injEq]
  constructor
  · rintro ⟨below, ⟨rfl, rfl⟩ | hmem, hleads⟩
    · exact Or.inl ⟨rfl, hleads⟩
    · exact Or.inr ⟨below, hmem, hleads⟩
  · rintro (⟨rfl, hleads⟩ | ⟨below, hmem, hleads⟩)
    · exact ⟨children, Or.inl ⟨rfl, rfl⟩, hleads⟩
    · exact ⟨below, Or.inr hmem, hleads⟩

theorem leads_perm (h : forest.Perm others) : Leads parts forest ↔ Leads parts others := by
  cases parts with
  | nil => simp
  | cons part parts => simp only [Leads, h.mem_iff]

theorem Leads.head (h : Leads (part :: parts) forest) : Leads [part] forest := by
  obtain ⟨children, hmem, -⟩ := h
  exact ⟨children, hmem, leads_nil children⟩

theorem leads_chain : Leads parts (chain path) ↔ parts <+: path := by
  induction path generalizing parts with
  | nil => cases parts <;> simp [chain]
  | cons first path ih =>
    cases parts with
    | nil => simp
    | cons part parts => rw [chain, leads_cons_cons, ih]; simp [List.cons_prefix_cons]

theorem leads_insert : Leads parts (insert path forest) ↔ Leads parts forest ∨ parts <+: path := by
  fun_induction insert path forest generalizing parts with
  | case1 forest =>
    constructor
    · exact Or.inl
    · rintro (h | h)
      · exact h
      · simp [List.prefix_nil.mp h]
  | case2 part rest =>
    change Leads parts (chain (part :: rest)) ↔ _
    rw [leads_chain]
    cases parts <;> simp
  | case3 rest name children others ih =>
    cases parts with
    | nil => simp
    | cons first parts =>
      rw [leads_cons_cons, leads_cons_cons, ih, List.cons_prefix_cons]
      tauto
  | case4 part rest name children others hname ih =>
    cases parts with
    | nil => simp
    | cons first parts => rw [leads_cons_cons, leads_cons_cons, ih, or_assoc]

theorem leads_foldl_insert (paths : List Text) :
    Leads parts (paths.foldl (fun forest path => insert (splitOn '/' path) forest) forest) ↔
      Leads parts forest ∨ ∃ path ∈ paths, parts <+: splitOn '/' path := by
  induction paths generalizing forest with
  | nil => simp
  | cons path paths ih =>
    rw [List.foldl_cons, ih, leads_insert, or_assoc]
    simp

/-- The forest of a list of paths leads along the beginnings of these paths. -/
theorem leads_ofPaths_iff {paths : List Text} (hne : parts ≠ []) :
    Leads parts (ofPaths paths) ↔ ∃ path ∈ paths, parts <+: splitOn '/' path := by
  obtain ⟨part, parts, rfl⟩ := List.exists_cons_of_ne_nil hne
  rw [ofPaths, leads_foldl_insert]
  simp

/-! ## Distinct names -/

def Distinct : List OutlineNode → Prop
  | [] => True
  | .node name children :: rest => ¬Leads [name] rest ∧ Distinct children ∧ Distinct rest

theorem distinct_cons : Distinct (.node name children :: forest) ↔
    ¬Leads [name] forest ∧ Distinct children ∧ Distinct forest := by
  rw [Distinct]

theorem distinct_nil : Distinct [] := by
  rw [Distinct]
  trivial

theorem distinct_perm (h : forest.Perm others) : Distinct forest ↔ Distinct others := by
  induction h with
  | nil => rfl
  | cons node h ih =>
    obtain ⟨name, children⟩ := node
    rw [distinct_cons, distinct_cons, leads_perm h, ih]
  | swap first second rest =>
    obtain ⟨name, children⟩ := first
    obtain ⟨other, below⟩ := second
    simp only [distinct_cons, leads_cons_cons]
    simp only [leads_nil, and_true, @eq_comm _ name other]
    tauto
  | trans _ _ ihfirst ihsecond => exact ihfirst.trans ihsecond

theorem distinct_chain (path : List Text) : Distinct (chain path) := by
  induction path with
  | nil => exact distinct_nil
  | cons part path ih => exact distinct_cons.mpr ⟨not_leads_cons_nil, ih, distinct_nil⟩

theorem Distinct.insert (h : Distinct forest) : Distinct (insert path forest) := by
  fun_induction OutlineNode.insert path forest with
  | case1 forest => exact h
  | case2 part rest => exact distinct_chain (part :: rest)
  | case3 rest name children others ih =>
    obtain ⟨hname, hchildren, hothers⟩ := distinct_cons.mp h
    exact distinct_cons.mpr ⟨hname, ih hchildren, hothers⟩
  | case4 part rest name children others hname ih =>
    obtain ⟨hapart, hchildren, hothers⟩ := distinct_cons.mp h
    refine distinct_cons.mpr ⟨?_, hchildren, ih hothers⟩
    rw [leads_insert, not_or]
    refine ⟨hapart, fun hlead => hname ?_⟩
    exact (List.cons_prefix_cons.mp hlead).1

theorem distinct_ofPaths (paths : List Text) : Distinct (ofPaths paths) := by
  have hfold : ∀ forest, Distinct forest →
      Distinct (paths.foldl (fun forest path => insert (splitOn '/' path) forest) forest) := by
    induction paths with
    | nil => exact fun forest h => h
    | cons path paths ih => exact fun forest h => ih _ h.insert
  exact hfold [] distinct_nil

end OutlineNode

end SourceAtlas
