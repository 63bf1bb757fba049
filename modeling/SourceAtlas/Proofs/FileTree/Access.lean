import SourceAtlas.FileTree.Access
import SourceAtlas.Proofs.FileTree.Basic

/-!
# Access by path

The way of a path through a tree is a chain of steps: up, along a link, or into an entry. The steps only
depend on what stands at the places passed, so a change that keeps directories and links keeps every
way. Making directories and writing files are such changes, and they change nothing but what they
make and write.
-/

namespace SourceAtlas.FileTree

open List Option

variable {target : Path} {node made : FileTree} {stop : List Text} {content : Bytes}
  {refuses : Path → Option FileProblem} {entries : List (Text × FileTree)} {name : Text}

/-! ## Ways -/

/-- The way of names from a place to a spot. At most as many links are followed as the number says. -/
inductive Leads (tree : FileTree) : Nat → List Text → List Text → Spot → Prop where
  | stop {links : Nat} {place : List Text} {node : FileTree} (found : tree.at? place = some node) :
      Leads tree links place [] (.node place node)
  | up {links : Nat} {place rest : List Text} {spot : Spot}
      (above : tree.view place = some .directory) (more : Leads tree links place.dropLast rest spot) :
      Leads tree links place ("..".toList :: rest) spot
  | follow {links : Nat} {place rest : List Text} {name : Text} {target : Path} {spot : Spot}
      (above : tree.view place = some .directory) (named : name ≠ "..".toList)
      (link : tree.view (place ++ [name]) = some (.link target))
      (more : Leads tree links (if target.absolute then [] else place) (target.parts ++ rest) spot) :
      Leads tree (links + 1) place (name :: rest) spot
  | enter {links : Nat} {place rest : List Text} {name : Text} {label : Label} {spot : Spot}
      (above : tree.view place = some .directory) (named : name ≠ "..".toList)
      (entry : tree.view (place ++ [name]) = some label) (solid : ∀ target, label ≠ .link target)
      (more : Leads tree links (place ++ [name]) rest spot) : Leads tree links place (name :: rest) spot
  | free {links : Nat} {place : List Text} {name : Text} (above : tree.view place = some .directory)
      (named : name ≠ "..".toList) (vacant : tree.view (place ++ [name]) = none) :
      Leads tree links place [name] (.vacant (place ++ [name]))

def Spot.place : Spot → List Text
  | .node place _ => place
  | .vacant place => place

variable {tree after : FileTree} {links : Nat} {place names : List Text} {spot : Spot}

theorem leads_of_locate (h : tree.locate links place names = .ok spot) :
    Leads tree links place names spot := by
  fun_induction locate tree links place names with
  | case1 links place node hnode =>
    obtain rfl := Except.ok.inj h
    exact .stop hnode
  | case3 links place rest entries hdirectory ih =>
    exact .up (view_of_at? hdirectory) (ih h)
  | case5 place name rest entries hdirectory hnamed target hentry links ih =>
    rw [lookup_eq_at? hdirectory] at hentry
    refine .follow (view_of_at? hdirectory) hnamed (view_of_at? hentry) ?_
    rw [← dite_eq_ite]
    apply ih
    rw [dite_eq_ite]
    exact h
  | case6 links place name rest entries hdirectory hnamed node hsolid hentry ih =>
    rw [lookup_eq_at? hdirectory] at hentry
    refine .enter (view_of_at? hdirectory) hnamed (view_of_at? hentry) ?_ (ih h)
    intro target hlabel
    cases node <;> cases hlabel
    exact hsolid target rfl
  | case7 links place name rest entries hdirectory hnamed hentry hrest =>
    rw [lookup_eq_at? hdirectory] at hentry
    obtain rfl := List.isEmpty_iff.mp hrest
    obtain rfl := Except.ok.inj h
    exact .free (view_of_at? hdirectory) hnamed (view_eq_none_iff.mpr hentry)
  | _ => cases h

section Steps

variable {name : Text} (habove : tree.view place = some .directory) (rest : List Text)

include habove

theorem locate_up :
    tree.locate links place ("..".toList :: rest) = tree.locate links place.dropLast rest := by
  obtain ⟨entries, hdirectory⟩ := view_eq_directory_iff.mp habove
  rw [locate, hdirectory]
  exact if_pos rfl

theorem locate_follow (hnamed : name ≠ "..".toList)
    (hlink : tree.view (place ++ [name]) = some (.link target)) :
    tree.locate (links + 1) place (name :: rest) =
      tree.locate links (if target.absolute then [] else place) (target.parts ++ rest) := by
  obtain ⟨entries, hdirectory⟩ := view_eq_directory_iff.mp habove
  have hentry := (lookup_eq_at? hdirectory name).trans (view_eq_link_iff.mp hlink)
  rw [locate, hdirectory]
  simp only [if_neg hnamed, hentry]

theorem locate_exhausted (hnamed : name ≠ "..".toList)
    (hlink : tree.view (place ++ [name]) = some (.link target)) :
    tree.locate 0 place (name :: rest) = .error .tooManyLinks := by
  obtain ⟨entries, hdirectory⟩ := view_eq_directory_iff.mp habove
  have hentry := (lookup_eq_at? hdirectory name).trans (view_eq_link_iff.mp hlink)
  rw [locate, hdirectory]
  simp only [if_neg hnamed, hentry]

theorem locate_enter {label : Label} (hnamed : name ≠ "..".toList)
    (hentry : tree.view (place ++ [name]) = some label) (hsolid : ∀ target, label ≠ .link target) :
    tree.locate links place (name :: rest) = tree.locate links (place ++ [name]) rest := by
  obtain ⟨entries, hdirectory⟩ := view_eq_directory_iff.mp habove
  obtain ⟨node, hnode, hlabel⟩ := map_eq_some_iff.mp hentry
  have hlookup := (lookup_eq_at? hdirectory name).trans hnode
  rw [locate, hdirectory]
  simp only [if_neg hnamed, hlookup]
  cases node with
  | link target => exact absurd hlabel.symm (hsolid target)
  | file content => rfl
  | locked problem => rfl
  | directory others => rfl

theorem locate_free (hnamed : name ≠ "..".toList) (hvacant : tree.view (place ++ [name]) = none) :
    tree.locate links place (name :: rest) =
      if rest.isEmpty then .ok (.vacant (place ++ [name])) else .error .notFound := by
  obtain ⟨entries, hdirectory⟩ := view_eq_directory_iff.mp habove
  have hentry := (lookup_eq_at? hdirectory name).trans (view_eq_none_iff.mp hvacant)
  rw [locate, hdirectory]
  simp only [if_neg hnamed, hentry]

end Steps

theorem locate_of_leads (h : Leads tree links place names spot) :
    tree.locate links place names = .ok spot := by
  induction h with
  | stop found => rw [locate, found]
  | up above more ih => rw [locate_up above, ih]
  | follow above named link more ih => rw [locate_follow above _ named link, ih]
  | enter above named entry solid more ih => rw [locate_enter above _ named entry solid, ih]
  | free above named vacant => rw [locate_free above _ named vacant, isEmpty_nil, if_pos rfl]

theorem locate_eq_ok_iff :
    tree.locate links place names = .ok spot ↔ Leads tree links place names spot :=
  ⟨leads_of_locate, locate_of_leads⟩

theorem Leads.at?_eq (h : Leads tree links place names (.node stop node)) :
    tree.at? stop = some node := by
  generalize hspot : Spot.node stop node = spot at h
  induction h with
  | stop found =>
    obtain ⟨rfl, rfl⟩ := Spot.node.inj hspot
    exact found
  | up above more ih => exact ih hspot
  | follow above named link more ih => exact ih hspot
  | enter above named entry solid more ih => exact ih hspot
  | free above named vacant => cases hspot

theorem Leads.place_eq_or_view (h : Leads tree links place names spot) :
    spot.place = place ∨ tree.view place = some .directory := by
  cases h with
  | stop found => exact Or.inl rfl
  | up above more => exact Or.inr above
  | follow above named link more => exact Or.inr above
  | enter above named entry solid more => exact Or.inr above
  | free above named vacant => exact Or.inr above

theorem Leads.isSlot_of_vacant (h : Leads tree links place names (.vacant stop)) :
    IsSlot tree stop ∧ tree.view stop = none := by
  generalize hspot : Spot.vacant stop = spot at h
  induction h with
  | stop found => cases hspot
  | up above more ih => exact ih hspot
  | follow above named link more ih => exact ih hspot
  | enter above named entry solid more ih => exact ih hspot
  | free above named vacant =>
    obtain rfl := Spot.vacant.inj hspot
    obtain ⟨entries, hdirectory⟩ := view_eq_directory_iff.mp above
    refine ⟨isSlot_of_free hdirectory ?_, vacant⟩
    rw [lookup_eq_at? hdirectory]
    exact view_eq_none_iff.mp vacant

theorem Leads.append_entry (h : Leads tree links place names (.node stop (.directory entries)))
    (hnamed : name ≠ "..".toList) (hentry : tree.at? (stop ++ [name]) = some node)
    (hsolid : ∀ target, node.label ≠ .link target) :
    Leads tree links place (names ++ [name]) (.node (stop ++ [name]) node) := by
  generalize hspot : Spot.node stop (.directory entries) = spot at h
  induction h with
  | stop found =>
    obtain ⟨rfl, rfl⟩ := Spot.node.inj hspot
    exact .enter (view_of_at? found) hnamed (view_of_at? hentry) hsolid (.stop hentry)
  | up above more ih => exact .up above (ih hspot)
  | follow above named link more ih =>
    rw [cons_append]
    refine .follow above named link ?_
    rw [← append_assoc]
    exact ih hspot
  | enter above named entry solid more ih => exact .enter above named entry solid (ih hspot)
  | free above named vacant => cases hspot

/-- The way to a directory passes through the one above it, in which the last name is taken. -/
theorem Leads.exists_parent
    (h : Leads tree links place (names ++ [name]) (.node stop (.directory entries))) :
    ∃ above others, Leads tree links place names (.node above (.directory others)) ∧
      (name = "..".toList ∨ (others.lookup name).isSome = true) := by
  generalize hnames : names ++ [name] = all at h
  generalize hspot : Spot.node stop (.directory entries) = spot at h
  -- where the last name starts the way, the place at hand is the directory above
  have last : ∀ {place : List Text} {label : Label} (links : Nat),
      tree.view place = some .directory → tree.view (place ++ [name]) = some label →
      ∃ above others, Leads tree links place [] (.node above (.directory others)) ∧
        (name = "..".toList ∨ (others.lookup name).isSome = true) := by
    intro place label links hdirectory hentry
    obtain ⟨others, hothers⟩ := view_eq_directory_iff.mp hdirectory
    obtain ⟨node, hnode, -⟩ := map_eq_some_iff.mp hentry
    refine ⟨place, others, .stop hothers, Or.inr ?_⟩
    rw [lookup_eq_at? hothers, hnode]
    rfl
  induction h generalizing names with
  | stop found => simp at hnames
  | @up links place rest spot above more ih =>
    cases names with
    | nil =>
      obtain ⟨rfl, -⟩ := cons.inj hnames
      obtain ⟨others, hothers⟩ := view_eq_directory_iff.mp above
      exact ⟨place, others, .stop hothers, Or.inl rfl⟩
    | cons first names =>
      obtain ⟨rfl, hrest⟩ := cons.inj hnames
      obtain ⟨stop, others, hway, htaken⟩ := ih hrest hspot
      exact ⟨stop, others, .up above hway, htaken⟩
  | @follow links place rest first target spot above named link more ih =>
    cases names with
    | nil =>
      obtain ⟨rfl, -⟩ := cons.inj hnames
      exact last _ above link
    | cons second names =>
      obtain ⟨rfl, hrest⟩ := cons.inj hnames
      have hparts : target.parts ++ names ++ [name] = target.parts ++ rest := by
        rw [append_assoc]
        exact congrArg _ hrest
      obtain ⟨stop, others, hway, htaken⟩ := ih hparts hspot
      exact ⟨stop, others, .follow above named link hway, htaken⟩
  | @enter links place rest first label spot above named entry solid more ih =>
    cases names with
    | nil =>
      obtain ⟨rfl, -⟩ := cons.inj hnames
      exact last _ above entry
    | cons second names =>
      obtain ⟨rfl, hrest⟩ := cons.inj hnames
      obtain ⟨stop, others, hway, htaken⟩ := ih hrest hspot
      exact ⟨stop, others, .enter above named entry solid hway, htaken⟩
  | free above named vacant => cases hspot

/-! ## Changes that keep ways -/

/-- Directories and links stay what they are. -/
structure Keeps (before after : FileTree) : Prop where
  directory : ∀ {place : List Text},
    before.view place = some .directory → after.view place = some .directory
  link : ∀ {place : List Text} {target : Path},
    before.view place = some (.link target) → after.view place = some (.link target)

theorem Leads.of_keeps (h : Leads tree links place names spot) (hkeeps : Keeps tree after)
    (hnode : after.at? spot.place = some node) (hsolid : ∀ target, node.label ≠ .link target) :
    Leads after links place names (.node spot.place node) := by
  induction h with
  | stop found => exact .stop hnode
  | up above more ih => exact .up (hkeeps.directory above) (ih hnode)
  | follow above named link more ih =>
    exact .follow (hkeeps.directory above) named (hkeeps.link link) (ih hnode)
  | enter above named entry solid more ih =>
    have hmore := ih hnode
    obtain hplace | hdirectory := more.place_eq_or_view
    · rw [hplace] at hnode
      exact .enter (hkeeps.directory above) named (view_of_at? hnode) hsolid hmore
    · exact .enter (hkeeps.directory above) named (hkeeps.directory hdirectory) nofun hmore
  | free above named vacant =>
    exact .enter (hkeeps.directory above) named (view_of_at? hnode) hsolid (.stop hnode)

/-- How a tree differs from the one it was made of by writing files: directories are new, and files
that are new or have another content are where the path of a file that was written leads. -/
def Grown (here : Path) (written : List (Path × Bytes)) (before after : FileTree) : Prop :=
  ∀ place, after.view place = before.view place ∨
    before.view place = none ∧ after.view place = some .directory ∨
    (before.view place = none ∨ ∃ old, before.view place = some (.file old)) ∧
      ∃ file ∈ written, after.spot here file.1 = .ok (.node place (.file file.2))

variable {here path : Path} {before : FileTree} {written more : List (Path × Bytes)}

theorem grown_refl (tree : FileTree) : Grown here written tree tree :=
  fun _ => Or.inl rfl

theorem Grown.view_of_not_file {label : Label} (h : Grown here written before after)
    (hplace : before.view place = some label) (hlabel : ∀ old, label ≠ .file old) :
    after.view place = some label := by
  obtain hsame | ⟨hnone, -⟩ | ⟨hnone | ⟨old, hold⟩, -⟩ := h place
  · exact hsame.trans hplace
  · cases hplace.symm.trans hnone
  · cases hplace.symm.trans hnone
  · exact absurd (some.inj (hplace.symm.trans hold)) (hlabel old)

theorem Grown.keeps (h : Grown here written before after) : Keeps before after where
  directory hplace := h.view_of_not_file hplace nofun
  link hplace := h.view_of_not_file hplace nofun

theorem spot_of_absolute (tree : FileTree) (here there : Path) (h : path.absolute = true) :
    tree.spot here path = tree.spot there path := by
  unfold FileTree.spot Path.join
  rw [if_pos h, if_pos h]

theorem view_of_spot (h : tree.spot here path = .ok (.node place (.file content))) :
    tree.view place = some (.file content) :=
  view_of_at? (leads_of_locate h).at?_eq

/-- A path still leads to its file when directories and links stay and the file has the content. -/
theorem spot_of_keeps (h : tree.spot here path = .ok spot) (hkeeps : Keeps tree after)
    (hfile : after.view spot.place = some (.file content)) :
    after.spot here path = .ok (.node spot.place (.file content)) :=
  locate_of_leads ((leads_of_locate h).of_keeps hkeeps (view_eq_file_iff.mp hfile) nofun)

theorem Grown.trans (first : Grown here written before tree) (second : Grown here more tree after) :
    Grown here (written ++ more) before after := by
  intro place
  obtain hsame | ⟨hnone, hmade⟩ | ⟨hslot, file, hfile, hway⟩ := second place
  · obtain hbefore | ⟨hnone, hmade⟩ | ⟨hslot, file, hfile, hway⟩ := first place
    · exact Or.inl (hsame.trans hbefore)
    · exact Or.inr (Or.inl ⟨hnone, hsame.trans hmade⟩)
    · refine Or.inr (Or.inr ⟨hslot, file, mem_append_left _ hfile, ?_⟩)
      exact spot_of_keeps hway second.keeps (hsame.trans (view_of_spot hway))
  · obtain hbefore | ⟨-, hdirectory⟩ | ⟨-, file, -, hway⟩ := first place
    · exact Or.inr (Or.inl ⟨hbefore.symm.trans hnone, hmade⟩)
    · cases hdirectory.symm.trans hnone
    · cases (view_of_spot hway).symm.trans hnone
  · refine Or.inr (Or.inr ⟨?_, file, mem_append_right _ hfile, hway⟩)
    obtain hbefore | ⟨hnone, hdirectory⟩ | ⟨hbefore, -⟩ := first place
    · rwa [← hbefore]
    · exact Or.inl hnone
    · exact hbefore

/-! ## Making directories -/

theorem isDirectoryAt_iff :
    tree.isDirectoryAt here path = true ↔ ∃ stop entries,
      Leads tree maxLinks [] (here.join path).parts (.node stop (.directory entries)) := by
  simp only [← locate_eq_ok_iff]
  unfold isDirectoryAt node? FileTree.spot
  cases tree.locate maxLinks [] (here.join path).parts with
  | error problem => simp
  | ok spot =>
    cases spot with
    | vacant place => simp
    | node place node => cases node <;> simp [isDirectory]

theorem makeDirectory_of_leads (hparts : (here.join path).parts = names ++ [name])
    (hway : Leads tree maxLinks [] names (.node place (.directory entries))) :
    makeDirectory refuses tree here path =
      if name = "..".toList || (entries.lookup name).isSome then .error .alreadyExists
      else
        match refuses path with
        | some problem => .error problem
        | none => .ok (tree.put (place ++ [name]) empty) := by
  unfold makeDirectory
  cases refuses path <;>
    simp only [hparts, getLast?_concat, dropLast_concat, locate_of_leads hway]

/-- A directory is made exactly where the rest of the path leads to a directory in which the last name
is free, unless the disk refuses it. -/
theorem makeDirectory_eq_ok_iff :
    makeDirectory refuses tree here path = .ok made ↔
      ∃ names name place entries, (here.join path).parts = names ++ [name] ∧
        Leads tree maxLinks [] names (.node place (.directory entries)) ∧
        name ≠ "..".toList ∧ entries.lookup name = none ∧ refuses path = none ∧
        made = tree.put (place ++ [name]) empty := by
  constructor
  · intro h
    unfold makeDirectory at h
    dsimp only at h
    obtain hnil | ⟨names, name, hparts⟩ := eq_nil_or_concat (here.join path).parts
    · simp [hnil] at h
    rw [concat_eq_append] at hparts
    rw [hparts, getLast?_concat, dropLast_concat] at h
    dsimp only at h
    cases hway : tree.locate maxLinks [] names with
    | error problem => simp [hway] at h
    | ok spot =>
      cases spot with
      | vacant place => simp [hway] at h
      | node place node =>
        cases node with
        | file content => simp [hway] at h
        | locked problem => simp [hway] at h
        | link target => simp [hway] at h
        | directory entries =>
          simp only [hway] at h
          by_cases htaken : (decide (name = "..".toList) || (entries.lookup name).isSome) = true
          · rw [if_pos htaken] at h
            cases h
          · rw [if_neg htaken] at h
            rw [Bool.or_eq_true, not_or, decide_eq_true_iff, not_isSome_iff_eq_none]
              at htaken
            cases hrefused : refuses path with
            | some problem => simp [hrefused] at h
            | none =>
              simp only [hrefused, Except.ok.injEq] at h
              exact ⟨names, name, place, entries, hparts, leads_of_locate hway, htaken.1, htaken.2,
                rfl, h.symm⟩
  · rintro ⟨names, name, place, entries, hparts, hway, hnamed, hfree, hrefused, rfl⟩
    rw [makeDirectory_of_leads hparts hway, decide_eq_false hnamed, hfree, hrefused]
    rfl

theorem makeDirectory_of_isDirectoryAt (h : tree.isDirectoryAt here path = true) :
    makeDirectory refuses tree here path = .error .alreadyExists := by
  obtain ⟨stop, entries, hway⟩ := isDirectoryAt_iff.mp h
  obtain hnil | ⟨names, name, hparts⟩ := eq_nil_or_concat (here.join path).parts
  · unfold makeDirectory
    dsimp only
    rw [hnil]
    rfl
  rw [concat_eq_append] at hparts
  rw [hparts] at hway
  obtain ⟨above, others, habove, htaken⟩ := hway.exists_parent
  rw [makeDirectory_of_leads hparts habove, if_pos]
  rw [Bool.or_eq_true, decide_eq_true_iff]
  exact htaken

theorem grown_makeDirectory (h : makeDirectory refuses tree here path = .ok made) :
    Grown here [] tree made := by
  obtain ⟨names, name, place, entries, -, hway, -, hfree, -, rfl⟩ := makeDirectory_eq_ok_iff.mp h
  have hnone : tree.view (place ++ [name]) = none := by
    rw [view_eq_none_iff, ← lookup_eq_at? hway.at?_eq]
    exact hfree
  intro other
  rw [view_put (isSlot_of_free hway.at?_eq hfree) rfl]
  by_cases hother : other = place ++ [name]
  · subst hother
    exact Or.inr (Or.inl ⟨hnone, Function.update_self ..⟩)
  · exact Or.inl (Function.update_of_ne hother ..)

theorem isDirectoryAt_of_keeps (h : tree.isDirectoryAt here path = true)
    (hkeeps : Keeps tree after) : after.isDirectoryAt here path = true := by
  obtain ⟨stop, entries, hway⟩ := isDirectoryAt_iff.mp h
  obtain ⟨others, hothers⟩ :=
    view_eq_directory_iff.mp (hkeeps.directory (view_of_at? hway.at?_eq))
  exact isDirectoryAt_iff.mpr ⟨stop, others, hway.of_keeps hkeeps hothers nofun⟩

theorem isDirectoryAt_of_makeDirectory (h : makeDirectory refuses tree here path = .ok made) :
    made.isDirectoryAt here path = true := by
  have hkeeps := (grown_makeDirectory h).keeps
  obtain ⟨names, name, place, entries, hparts, hway, hnamed, hfree, -, rfl⟩ :=
    makeDirectory_eq_ok_iff.mp h
  obtain ⟨others, hothers⟩ :=
    view_eq_directory_iff.mp (hkeeps.directory (view_of_at? hway.at?_eq))
  have hmade : (tree.put (place ++ [name]) empty).view (place ++ [name]) = some .directory := by
    rw [view_put (isSlot_of_free hway.at?_eq hfree) rfl]
    exact Function.update_self ..
  obtain ⟨inner, hinner⟩ := view_eq_directory_iff.mp hmade
  rw [isDirectoryAt_iff, hparts]
  refine ⟨place ++ [name], inner, ?_⟩
  exact (hway.of_keeps hkeeps hothers nofun).append_entry hnamed hinner nofun

/-- What making a directory with those above it can do: it makes them all, or stops at one. -/
theorem makeChain_spec (refuses : Path → Option FileProblem) (tree : FileTree) (here : Path)
    (absolute : Bool) (names : List Text) :
    Grown here [] tree (makeChain refuses tree here absolute names).tree ∧
      ((makeChain refuses tree here absolute names).fault = none → names ≠ [] →
        (makeChain refuses tree here absolute names).tree.isDirectoryAt here
          ⟨absolute, names.reverse⟩ = true) := by
  induction names with
  | nil => exact ⟨grown_refl tree, fun _ hnil => absurd rfl hnil⟩
  | cons name above ih =>
    -- a name that is taken is fine if a directory is there
    have hsettle : ∀ (tree : FileTree) (problem : FileProblem),
        let settled := if tree.isDirectoryAt here ⟨absolute, (name :: above).reverse⟩ then
            Change.mk tree none
          else Change.mk tree (some (.file ⟨problem, ⟨absolute, (name :: above).reverse⟩⟩))
        settled.tree = tree ∧ (settled.fault = none →
          settled.tree.isDirectoryAt here ⟨absolute, (name :: above).reverse⟩ = true) := by
      intro tree problem
      by_cases hdirectory : tree.isDirectoryAt here ⟨absolute, (name :: above).reverse⟩ = true
      · rw [if_pos hdirectory]
        exact ⟨rfl, fun _ => hdirectory⟩
      · rw [if_neg hdirectory]
        exact ⟨rfl, nofun⟩
    rw [makeChain]
    dsimp only
    split
    · rename_i made hmade
      exact ⟨grown_makeDirectory hmade, fun _ _ => isDirectoryAt_of_makeDirectory hmade⟩
    · generalize makeChain refuses tree here absolute above = chain at ih ⊢
      obtain ⟨reached, fault⟩ := chain
      cases fault with
      | some fault => exact ⟨ih.1, nofun⟩
      | none =>
        dsimp only
        split
        · rename_i made hmade
          exact ⟨ih.1.trans (grown_makeDirectory hmade),
            fun _ _ => isDirectoryAt_of_makeDirectory hmade⟩
        · rename_i problem hproblem
          obtain ⟨htree, hdirectory⟩ := hsettle reached problem
          exact ⟨htree.symm ▸ ih.1, fun h _ => hdirectory h⟩
    · rename_i problem hproblem hother
      obtain ⟨htree, hdirectory⟩ := hsettle tree problem
      exact ⟨htree.symm ▸ grown_refl tree, fun h _ => hdirectory h⟩

theorem makeDirectories_of_hasNull (h : path.hasNull = false) :
    makeDirectories refuses tree here path =
      makeChain refuses tree here path.absolute path.parts.reverse := by
  rw [makeDirectories, h]
  rfl

theorem hasNull_of_makeDirectories (h : (makeDirectories refuses tree here path).fault = none) :
    path.hasNull = false := by
  cases hnull : path.hasNull with
  | false => rfl
  | true =>
    rw [makeDirectories, if_pos hnull] at h
    cases h

theorem grown_makeDirectories (refuses : Path → Option FileProblem) (tree : FileTree)
    (here path : Path) : Grown here [] tree (makeDirectories refuses tree here path).tree := by
  cases hnull : path.hasNull with
  | true =>
    rw [makeDirectories, if_pos hnull]
    exact grown_refl tree
  | false =>
    rw [makeDirectories_of_hasNull hnull]
    exact (makeChain_spec refuses tree here path.absolute path.parts.reverse).1

theorem isDirectoryAt_of_makeDirectories
    (h : (makeDirectories refuses tree here path).fault = none) (hparts : path.parts ≠ []) :
    (makeDirectories refuses tree here path).tree.isDirectoryAt here path = true := by
  have hnull := hasNull_of_makeDirectories h
  rw [makeDirectories_of_hasNull hnull] at h ⊢
  have hdirectory := (makeChain_spec refuses tree here path.absolute path.parts.reverse).2 h
    (by simpa using hparts)
  rwa [reverse_reverse] at hdirectory

theorem makeDirectories_of_makeDirectory (hnull : path.hasNull = false) (hparts : path.parts ≠ [])
    (h : makeDirectory refuses tree here path = .ok made) :
    makeDirectories refuses tree here path = ⟨made, none⟩ := by
  rw [makeDirectories_of_hasNull hnull]
  cases hnames : path.parts.reverse with
  | nil => exact absurd (reverse_eq_nil_iff.mp hnames) hparts
  | cons name above =>
    have hpath : (⟨path.absolute, (name :: above).reverse⟩ : Path) = path := by
      rw [← hnames, reverse_reverse]
    rw [makeChain]
    dsimp only
    rw [hpath, h]

theorem makeChain_of_isDirectoryAt {absolute : Bool}
    (h : names ≠ [] → tree.isDirectoryAt here ⟨absolute, names.reverse⟩ = true) :
    makeChain refuses tree here absolute names = ⟨tree, none⟩ := by
  cases names with
  | nil => rfl
  | cons name above =>
    have hdirectory := h (cons_ne_nil name above)
    rw [makeChain]
    dsimp only
    rw [makeDirectory_of_isDirectoryAt hdirectory]
    exact if_pos hdirectory

theorem makeDirectories_of_isDirectoryAt (refuses : Path → Option FileProblem)
    (hnull : path.hasNull = false)
    (h : path.parts ≠ [] → tree.isDirectoryAt here path = true) :
    makeDirectories refuses tree here path = ⟨tree, none⟩ := by
  rw [makeDirectories_of_hasNull hnull]
  apply makeChain_of_isDirectoryAt
  rw [reverse_reverse]
  exact fun hne => h fun hnil => hne (reverse_eq_nil_iff.mpr hnil)

/-! ## Reading files -/

theorem read_of_spot (h : tree.spot here path = .ok (.node place (.file content))) :
    tree.read here path = .ok content := by
  unfold FileTree.read
  rw [h]

theorem node?_of_spot (h : tree.spot here path = .ok (.node place node)) :
    tree.node? here path = some node := by
  unfold node?
  rw [h]

theorem exists_spot_of_node? (h : tree.node? here path = some node) :
    ∃ place, tree.spot here path = .ok (.node place node) := by
  unfold node? at h
  cases hspot : tree.spot here path with
  | error problem => simp [hspot] at h
  | ok spot =>
    cases spot with
    | vacant place => simp [hspot] at h
    | node place other =>
      obtain rfl : other = node := by simpa [hspot] using h
      exact ⟨place, rfl⟩

theorem exists_spot_of_read (h : tree.read here path = .ok content) :
    ∃ place, tree.spot here path = .ok (.node place (.file content)) := by
  unfold FileTree.read at h
  cases hspot : tree.spot here path with
  | error problem => simp [hspot] at h
  | ok spot =>
    cases spot with
    | vacant place => simp [hspot] at h
    | node place node => cases node <;> simp_all

theorem node?_of_read (h : tree.read here path = .ok content) :
    tree.node? here path = some (.file content) := by
  obtain ⟨place, hspot⟩ := exists_spot_of_read h
  exact node?_of_spot hspot

theorem isFileAt_of_read (h : tree.read here path = .ok content) :
    tree.isFileAt here path = true := by
  rw [isFileAt, node?_of_read h]
  rfl

/-! ## Writing files -/

/-- A file can be opened where the path leads to a file or to a free name. -/
theorem slot_cases (tree : FileTree) (here path : Path) :
    (∃ fault, tree.slot here path = .error fault) ∨
    ∃ spot old, tree.spot here path = .ok spot ∧ IsSlot tree spot.place ∧
      (tree.view spot.place = none ∨ ∃ old, tree.view spot.place = some (.file old)) ∧
      tree.slot here path = .ok (spot.place, old) := by
  unfold slot
  cases path.hasNull with
  | true => exact Or.inl ⟨_, rfl⟩
  | false =>
    cases hspot : tree.spot here path with
    | error problem => exact Or.inl ⟨_, rfl⟩
    | ok spot =>
      cases spot with
      | vacant place =>
        obtain ⟨hslot, hnone⟩ := (leads_of_locate hspot).isSlot_of_vacant
        exact Or.inr ⟨_, [], rfl, hslot, Or.inl hnone, rfl⟩
      | node place node =>
        cases node with
        | file old =>
          have hfile := (leads_of_locate hspot).at?_eq
          exact Or.inr ⟨_, old, rfl, isSlot_of_at?_file hfile, Or.inr ⟨old, view_of_at? hfile⟩, rfl⟩
        | locked problem => exact Or.inl ⟨_, rfl⟩
        | link target => exact Or.inl ⟨_, rfl⟩
        | directory entries => exact Or.inl ⟨_, rfl⟩

theorem write_of_slot {old : Bytes} (h : tree.slot here path = .ok (place, old)) :
    tree.write here path content none = ⟨tree.put place (.file content), none⟩ := by
  rw [write, openEmpty, h]
  simp only [put_put]

/-- Writing leaves the tree alone or puts a front of the content where the path leads, and all of it
when there is no fault. -/
theorem write_cases (tree : FileTree) (here path : Path) (content : Bytes) (halt : Option Stop) :
    (∃ fault, tree.write here path content halt = ⟨tree, some fault⟩) ∨
    ∃ spot front fault, tree.spot here path = .ok spot ∧ IsSlot tree spot.place ∧
      (tree.view spot.place = none ∨ ∃ old, tree.view spot.place = some (.file old)) ∧
      front <+: content ∧ (fault = none → front = content) ∧
      tree.write here path content halt = ⟨tree.put spot.place (.file front), fault⟩ := by
  obtain ⟨fault, hslot⟩ | ⟨spot, old, hspot, hfree, hold, hslot⟩ := slot_cases tree here path
  · refine Or.inl ⟨fault, ?_⟩
    rw [write, openEmpty, hslot]
  obtain _ | problem | ⟨length, message⟩ := halt
  · exact Or.inr ⟨spot, content, none, hspot, hfree, hold, prefix_rfl, fun _ => rfl,
      write_of_slot hslot⟩
  · refine Or.inl ⟨.file ⟨problem, path⟩, ?_⟩
    rw [write, openEmpty, hslot]
  · refine Or.inr ⟨spot, content.take length, some (.interrupted message), hspot, hfree, hold,
      take_prefix .., nofun, ?_⟩
    rw [write, openEmpty, hslot]
    simp only [put_put]

theorem grown_put (hspot : tree.spot here path = .ok spot) (hslot : IsSlot tree spot.place)
    (hold : tree.view spot.place = none ∨ ∃ old, tree.view spot.place = some (.file old))
    (content : Bytes) : Grown here [(path, content)] tree (tree.put spot.place (.file content)) := by
  have hview : (tree.put spot.place (.file content)).view =
      Function.update tree.view spot.place (some (.file content)) := view_put hslot rfl
  have hother : ∀ other ≠ spot.place, (tree.put spot.place (.file content)).view other =
      tree.view other := by
    intro other hne
    rw [hview]
    exact Function.update_of_ne hne ..
  have hself : (tree.put spot.place (.file content)).view spot.place = some (.file content) := by
    rw [hview]
    exact Function.update_self ..
  have hkept : ∀ {place label}, tree.view place = some label → (∀ old, label ≠ .file old) →
      (tree.put spot.place (.file content)).view place = some label := by
    intro place label hplace hlabel
    refine (hother place ?_).trans hplace
    rintro rfl
    obtain hnone | ⟨old, hfile⟩ := hold
    · cases hplace.symm.trans hnone
    · exact hlabel old (some.inj (hplace.symm.trans hfile))
  have hkeeps : Keeps tree (tree.put spot.place (.file content)) :=
    ⟨fun hplace => hkept hplace nofun, fun hplace => hkept hplace nofun⟩
  intro place
  by_cases hplace : place = spot.place
  · subst hplace
    exact Or.inr (Or.inr ⟨hold, _, mem_singleton_self _, spot_of_keeps hspot hkeeps hself⟩)
  · exact Or.inl (hother place hplace)

/-- Writing changes a tree by a front of the content, and by all of it when there is no fault. -/
theorem grown_write (tree : FileTree) (here path : Path) (content : Bytes) (halt : Option Stop) :
    ∃ front, front <+: content ∧
      ((tree.write here path content halt).fault = none → front = content) ∧
      Grown here [(path, front)] tree (tree.write here path content halt).tree := by
  obtain ⟨fault, hwrite⟩ | ⟨spot, front, fault, hspot, hslot, hold, hfront, hall, hwrite⟩ :=
    write_cases tree here path content halt
  · rw [hwrite]
    exact ⟨[], nil_prefix, nofun, grown_refl tree⟩
  · rw [hwrite]
    exact ⟨front, hfront, hall, grown_put hspot hslot hold front⟩

end SourceAtlas.FileTree
