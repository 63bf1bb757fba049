import SourceAtlas.Proofs.FileTree.Access

/-!
# Resolved paths

Resolving a path that leads somewhere gives the place it leads to. Read as a path, this place leads
to itself: no name on the way is a link or leads up.
-/

namespace SourceAtlas.FileTree

open List

variable {tree after node : FileTree} {links : Nat} {place names : List Text} {spot : Spot}
  {here path : Path} {name : Text}

/-! ## Steps of resolving -/

theorem resolveNames_up (tree : FileTree) (links : Nat) (place rest : List Text) :
    tree.resolveNames links place ("..".toList :: rest) =
      tree.resolveNames links place.dropLast rest := by
  rw [resolveNames, if_pos rfl]

theorem resolveNames_follow {target : Path} (hnamed : name ≠ "..".toList)
    (hlink : tree.view (place ++ [name]) = some (.link target)) (rest : List Text) :
    tree.resolveNames (links + 1) place (name :: rest) =
      tree.resolveNames links (if target.absolute then [] else place) (target.parts ++ rest) := by
  rw [resolveNames, if_neg hnamed, view_eq_link_iff.mp hlink]

theorem resolveNames_exhausted {target : Path} (hnamed : name ≠ "..".toList)
    (hlink : tree.view (place ++ [name]) = some (.link target)) (rest : List Text) :
    tree.resolveNames 0 place (name :: rest) = tree.resolveNames 0 (place ++ [name]) rest := by
  rw [resolveNames, if_neg hnamed, view_eq_link_iff.mp hlink]

theorem resolveNames_enter (hnamed : name ≠ "..".toList)
    (hsolid : ∀ target, tree.view (place ++ [name]) ≠ some (.link target)) (rest : List Text) :
    tree.resolveNames links place (name :: rest) =
      tree.resolveNames links (place ++ [name]) rest := by
  have hnode : ∀ target, tree.at? (place ++ [name]) ≠ some (.link target) :=
    fun target h => hsolid target (view_eq_link_iff.mpr h)
  rw [resolveNames, if_neg hnamed]
  cases hentry : tree.at? (place ++ [name]) with
  | none => rfl
  | some child =>
    cases child with
    | link target => exact absurd hentry (hnode target)
    | file content => rfl
    | locked problem => rfl
    | directory entries => rfl

/-! ## Places that paths lead to -/

theorem Leads.resolveNames_eq (h : Leads tree links place names spot) :
    tree.resolveNames links place names = spot.place := by
  induction h with
  | stop found => rw [resolveNames]; rfl
  | up above more ih => rw [resolveNames_up, ih]
  | follow above named link more ih => rw [resolveNames_follow named link, ih]
  | enter above named entry solid more ih =>
    rw [resolveNames_enter named, ih]
    intro target hlink
    exact solid target (Option.some.inj (entry.symm.trans hlink))
  | free above named vacant =>
    rw [resolveNames_enter named, resolveNames]
    · rfl
    · intro target hlink
      cases vacant.symm.trans hlink

/-- No way from the top ends at a place with `..` in it. -/
theorem Leads.up_notMem (h : Leads tree links place names spot) (hplace : "..".toList ∉ place) :
    "..".toList ∉ spot.place := by
  induction h with
  | stop found => exact hplace
  | up above more ih => exact ih fun hmem => hplace (dropLast_subset _ hmem)
  | @follow links place rest name target spot above named link more ih =>
    apply ih
    cases target.absolute with
    | true => exact not_mem_nil
    | false => exact hplace
  | enter above named entry solid more ih =>
    apply ih
    rw [mem_append, mem_singleton, not_or]
    exact ⟨hplace, Ne.symm named⟩
  | free above named vacant =>
    rw [Spot.place, mem_append, mem_singleton, not_or]
    exact ⟨hplace, Ne.symm named⟩

theorem view_of_at?_append {first rest : List Text} (h : tree.at? (first ++ rest) = some node)
    (hrest : rest ≠ []) : tree.view first = some .directory := by
  obtain ⟨name, rest, rfl⟩ := exists_cons_of_ne_nil hrest
  rw [at?_append] at h
  obtain ⟨above, habove, hbelow⟩ := Option.bind_eq_some_iff.mp h
  cases above with
  | directory entries => exact view_of_at? habove
  | file content => cases hbelow
  | locked problem => cases hbelow
  | link target => cases hbelow

/-- Where something stands that is no link, its place read as a path leads there. -/
theorem leads_self (hnode : tree.at? place = some node) (hsolid : ∀ target, node.label ≠ .link target)
    (hup : "..".toList ∉ place) (links : Nat) : Leads tree links [] place (.node place node) := by
  -- on the way every place is a directory, since something stands below it
  have hway : ∀ rest first, place = first ++ rest →
      Leads tree links first rest (.node place node) := by
    intro rest
    induction rest with
    | nil =>
      rintro first rfl
      rw [append_nil] at hnode ⊢
      exact .stop hnode
    | cons name rest ih =>
      rintro first rfl
      have hsplit : first ++ name :: rest = first ++ [name] ++ rest := by simp
      have hnamed : name ≠ "..".toList := by
        rintro rfl
        exact hup (mem_append_right _ mem_cons_self)
      have hmore := ih (first ++ [name]) hsplit
      have habove := view_of_at?_append hnode (cons_ne_nil name rest)
      rw [hsplit] at hnode
      by_cases hrest : rest = []
      · subst hrest
        rw [append_nil] at hnode
        exact .enter habove hnamed (view_of_at? hnode) hsolid hmore
      · exact .enter habove hnamed (view_of_at?_append hnode hrest) nofun hmore
  exact hway place [] rfl

theorem resolve_of_spot (h : tree.spot here path = .ok spot) :
    tree.resolve here path = ⟨true, spot.place⟩ := by
  unfold resolve
  rw [(leads_of_locate h).resolveNames_eq]

theorem spot_resolve (h : tree.spot here path = .ok (.node place node))
    (hsolid : ∀ target, node.label ≠ .link target) :
    tree.spot here (tree.resolve here path) = .ok (.node place node) := by
  have hway := leads_of_locate h
  rw [resolve_of_spot h]
  exact locate_of_leads (leads_self hway.at?_eq hsolid (hway.up_notMem not_mem_nil) maxLinks)

theorem up_notMem_resolveNames (hplace : "..".toList ∉ place) :
    "..".toList ∉ tree.resolveNames links place names := by
  have hentry : ∀ {place : List Text} {name : Text}, "..".toList ∉ place → name ≠ "..".toList →
      "..".toList ∉ place ++ [name] := by
    intro place name hplace hnamed
    rw [mem_append, mem_singleton, not_or]
    exact ⟨hplace, Ne.symm hnamed⟩
  fun_induction resolveNames tree links place names with
  | case1 links place => exact hplace
  | case2 links place rest ih => exact ih fun hmem => hplace (dropLast_subset _ hmem)
  | case3 place name rest hnamed target hlink ih => exact ih (hentry hplace hnamed)
  | case4 place name rest hnamed target hlink links ih =>
    rw [dite_eq_ite] at ih
    apply ih
    split
    · exact not_mem_nil
    · exact hplace
  | case5 links place name rest hnamed hsolid ih => exact ih (hentry hplace hnamed)

/-! ## Trees with the same links -/

theorem resolveNames_congr
    (hlinks : ∀ place target, after.view place = some (.link target) ↔
      tree.view place = some (.link target)) (links : Nat) (place names : List Text) :
    after.resolveNames links place names = tree.resolveNames links place names := by
  fun_induction resolveNames tree links place names with
  | case1 links place => rw [resolveNames]
  | case2 links place rest ih => rw [resolveNames_up, ih]
  | case3 place name rest hnamed target hlink ih =>
    rw [resolveNames_exhausted hnamed ((hlinks _ _).mpr (view_of_at? hlink)), ih]
  | case4 place name rest hnamed target hlink links ih =>
    rw [resolveNames_follow hnamed ((hlinks _ _).mpr (view_of_at? hlink))]
    rw [dite_eq_ite] at ih
    exact ih
  | case5 links place name rest hnamed hsolid ih =>
    rw [resolveNames_enter hnamed, ih]
    intro target hlink
    exact hsolid target (view_eq_link_iff.mp ((hlinks _ _).mp hlink))

end SourceAtlas.FileTree
