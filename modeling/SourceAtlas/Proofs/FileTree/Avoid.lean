import SourceAtlas.Proofs.FileTree.Resolve

/-!
# Ways that avoid a directory

What a path leads to depends on what stands at the places that its way passes. A change within a
directory leaves alone what stands elsewhere, and inside it keeps directories and links. So the change
does not show on a way that meets neither a file nor a free name in that directory.
-/

namespace SourceAtlas.FileTree

open List Option

variable {name : Text} {more passed : List Text}

variable {tree after node : FileTree} {links : Nat} {place names stop out : List Text}
  {entries : List (Text × FileTree)} {here path : Path}

/-! ## Places on a way -/

/-- The places at which the way of some names looks, from a place on. -/
inductive Passes (tree : FileTree) : Nat → List Text → List Text → List Text → Prop where
  | start {links : Nat} {place names : List Text} : Passes tree links place names place
  | up {links : Nat} {place rest stop : List Text} (above : tree.view place = some .directory)
      (more : Passes tree links place.dropLast rest stop) :
      Passes tree links place ("..".toList :: rest) stop
  | look {links : Nat} {place rest : List Text} {name : Text}
      (above : tree.view place = some .directory) (named : name ≠ "..".toList) :
      Passes tree links place (name :: rest) (place ++ [name])
  | follow {links : Nat} {place rest stop : List Text} {name : Text} {target : Path}
      (above : tree.view place = some .directory) (named : name ≠ "..".toList)
      (link : tree.view (place ++ [name]) = some (.link target))
      (more : Passes tree links (if target.absolute then [] else place) (target.parts ++ rest) stop) :
      Passes tree (links + 1) place (name :: rest) stop
  | enter {links : Nat} {place rest stop : List Text} {name : Text} {label : Label}
      (above : tree.view place = some .directory) (named : name ≠ "..".toList)
      (entry : tree.view (place ++ [name]) = some label) (solid : ∀ target, label ≠ .link target)
      (more : Passes tree links (place ++ [name]) rest stop) : Passes tree links place (name :: rest) stop

def Spot.seen : Spot → List Text × Option Label
  | .node place node => (place, some node.label)
  | .vacant place => (place, none)

theorem locate_blocked {label : Label} (h : tree.view place = some label)
    (hlabel : label ≠ .directory) (rest : List Text) :
    tree.locate links place (name :: rest) = .error .notDirectory := by
  obtain ⟨node, hnode, rfl⟩ := map_eq_some_iff.mp h
  rw [locate, hnode]
  cases node with
  | directory entries => exact absurd rfl hlabel
  | file content => rfl
  | locked problem => rfl
  | link target => rfl

/-- A way shows the same in two trees that agree on the places it passes. -/
theorem locate_congr
    (h : ∀ stop, Passes tree links place names stop → after.view stop = tree.view stop) :
    (after.locate links place names).map Spot.seen =
      (tree.locate links place names).map Spot.seen := by
  -- each case passes the places whose labels decided it, so the other tree takes the same case
  fun_induction locate tree links place names with
  | case1 links place node hnode =>
    have hview := (h place .start).trans (view_of_at? hnode)
    obtain ⟨other, hother, hlabel⟩ := map_eq_some_iff.mp hview
    rw [locate, hother]
    exact congrArg (fun label => Except.ok (place, some label)) hlabel
  | case2 links place hnone =>
    have hview := (h place .start).trans (view_eq_none_iff.mpr hnone)
    rw [locate, view_eq_none_iff.mp hview]
  | case3 links place rest entries hdirectory ih =>
    have habove := view_of_at? hdirectory
    rw [locate_up ((h place .start).trans habove)]
    exact ih fun stop hstop => h stop (.up habove hstop)
  | case4 place name rest entries hdirectory hnamed target hentry =>
    have habove := view_of_at? hdirectory
    rw [lookup_eq_at? hdirectory] at hentry
    have hlink := (h _ (.look habove hnamed)).trans (view_of_at? hentry)
    rw [locate_exhausted ((h place .start).trans habove) rest hnamed hlink]
  | case5 place name rest entries hdirectory hnamed target hentry links ih =>
    have habove := view_of_at? hdirectory
    rw [lookup_eq_at? hdirectory] at hentry
    have hlink := (h _ (.look habove hnamed)).trans (view_of_at? hentry)
    rw [locate_follow ((h place .start).trans habove) rest hnamed hlink]
    rw [dite_eq_ite] at ih
    exact ih fun stop hstop => h stop (.follow habove hnamed (view_of_at? hentry) hstop)
  | case6 links place name rest entries hdirectory hnamed node hsolid hentry ih =>
    have habove := view_of_at? hdirectory
    rw [lookup_eq_at? hdirectory] at hentry
    have hsolid' : ∀ target, node.label ≠ .link target := by
      intro target hlabel
      cases node <;> cases hlabel
      exact hsolid target rfl
    have hview := (h _ (.look habove hnamed)).trans (view_of_at? hentry)
    rw [locate_enter ((h place .start).trans habove) rest hnamed hview hsolid']
    exact ih fun stop hstop => h stop (.enter habove hnamed (view_of_at? hentry) hsolid' hstop)
  | case7 links place name rest entries hdirectory hnamed hentry hrest =>
    have habove := view_of_at? hdirectory
    rw [lookup_eq_at? hdirectory] at hentry
    have hview := (h _ (.look habove hnamed)).trans (view_eq_none_iff.mpr hentry)
    rw [locate_free ((h place .start).trans habove) rest hnamed hview, if_pos hrest]
  | case8 links place name rest entries hdirectory hnamed hentry hrest =>
    have habove := view_of_at? hdirectory
    rw [lookup_eq_at? hdirectory] at hentry
    have hview := (h _ (.look habove hnamed)).trans (view_eq_none_iff.mpr hentry)
    rw [locate_free ((h place .start).trans habove) rest hnamed hview, if_neg hrest]
  | case9 links place name rest node hother hnode =>
    have hlabel : node.label ≠ .directory := by
      intro hdirectory
      cases node <;> cases hdirectory
      exact hother _ rfl
    rw [locate_blocked ((h place .start).trans (view_of_at? hnode)) hlabel]
  | case10 links place name rest hnone =>
    have hview := (h place .start).trans (view_eq_none_iff.mpr hnone)
    rw [locate, view_eq_none_iff.mp hview]

/-! ## What a path shows -/

def readSeen (path : Path) : Except FileProblem (List Text × Option Label) → Except FileFault Bytes
  | .ok (_, some (.file content)) => .ok content
  | .ok (_, some (.locked problem)) => .error ⟨problem, path⟩
  | .ok (_, some _) => .error ⟨.isDirectory, path⟩
  | .ok (_, none) => .error ⟨.notFound, path⟩
  | .error problem => .error ⟨problem, path⟩

theorem read_eq_readSeen (tree : FileTree) (here path : Path) :
    tree.read here path = readSeen path ((tree.spot here path).map Spot.seen) := by
  unfold FileTree.read
  cases tree.spot here path with
  | error problem => rfl
  | ok spot =>
    cases spot with
    | vacant place => rfl
    | node place node => cases node <;> rfl

theorem label_of_seen (tree : FileTree) (here path : Path) :
    (tree.node? here path).map label =
      ((tree.spot here path).map Spot.seen).toOption.bind Prod.snd := by
  unfold node?
  cases tree.spot here path with
  | error problem => rfl
  | ok spot => cases spot <;> rfl

/-- A label leaves open only what a directory holds. -/
theorem eq_or_directory_of_label_eq {first second : Option FileTree}
    (h : first.map label = second.map label) :
    first = second ∨ ∃ entries others, first = some (.directory entries) ∧
      second = some (.directory others) := by
  cases second with
  | none => exact Or.inl (map_eq_none_iff.mp h)
  | some node =>
    obtain ⟨other, rfl, hlabel⟩ := map_eq_some_iff.mp h
    cases other <;> cases node <;> cases hlabel
    case some.directory.directory.refl => exact Or.inr ⟨_, _, rfl, rfl⟩
    all_goals exact Or.inl rfl

/-- Whether there is a file or a directory is seen from the label. -/
theorem isFileAt_and_isDirectoryAt_congr
    (h : (after.node? here path).map label = (tree.node? here path).map label) :
    after.isFileAt here path = tree.isFileAt here path ∧
      after.isDirectoryAt here path = tree.isDirectoryAt here path := by
  unfold isFileAt isDirectoryAt
  obtain hsame | ⟨entries, others, hafter, hbefore⟩ := eq_or_directory_of_label_eq h
  · rw [hsame]
    exact ⟨rfl, rfl⟩
  · rw [hafter, hbefore]
    exact ⟨rfl, rfl⟩

/-! ## Changes within a directory -/

def Stays (tree : FileTree) (place : List Text) : Prop :=
  ∃ label, tree.view place = some label ∧ ∀ content, label ≠ .file content

/-- A change that puts new directories and files in one directory and new contents in its files. -/
structure Within (out : List Text) (before after : FileTree) : Prop where
  outside : ∀ {place : List Text}, ¬ out <+: place → after.view place = before.view place
  stays : ∀ {place : List Text} {label : Label}, before.view place = some label →
    (∀ content, label ≠ .file content) → after.view place = some label
  link : ∀ {place : List Text} {target : Path},
    after.view place = some (.link target) → before.view place = some (.link target)
  file : ∀ {place : List Text} {content : Bytes}, before.view place = some (.file content) →
    ∃ new, after.view place = some (.file new)

theorem Within.keeps (h : Within out tree after) : Keeps tree after :=
  ⟨fun hplace => h.stays hplace nofun, fun hplace => h.stays hplace nofun⟩

theorem Within.resolve_eq (h : Within out tree after) (here path : Path) :
    after.resolve here path = tree.resolve here path := by
  unfold resolve
  rw [resolveNames_congr fun place target => ⟨h.link, fun hlink => h.stays hlink nofun⟩]

/-- The way of some names meets no file and no free name in a directory. -/
def Avoids (tree : FileTree) (out : List Text) (links : Nat) (place names : List Text) : Prop :=
  ∀ stop, Passes tree links place names stop → out <+: stop → Stays tree stop

theorem Within.seen_eq (h : Within out tree after)
    (havoids : Avoids tree out maxLinks [] (here.join path).parts) :
    (after.spot here path).map Spot.seen = (tree.spot here path).map Spot.seen := by
  refine locate_congr fun stop hstop => ?_
  by_cases hinside : out <+: stop
  · obtain ⟨label, hlabel, hfile⟩ := havoids stop hstop hinside
    rw [hlabel, h.stays hlabel hfile]
  · exact h.outside hinside

theorem Within.read_eq (h : Within out tree after)
    (havoids : Avoids tree out maxLinks [] (here.join path).parts) :
    after.read here path = tree.read here path := by
  rw [read_eq_readSeen, read_eq_readSeen, h.seen_eq havoids]

theorem Within.label_eq (h : Within out tree after)
    (havoids : Avoids tree out maxLinks [] (here.join path).parts) :
    (after.node? here path).map label = (tree.node? here path).map label := by
  rw [label_of_seen, label_of_seen, h.seen_eq havoids]

/-! ## Ways that avoid a directory -/

theorem stays_of_directory (h : tree.view place = some .directory) : Stays tree place :=
  ⟨_, h, nofun⟩

/-- On the way to a directory there are directories and links; what follows goes on from there. -/
theorem Leads.passes_append (h : Leads tree links place names (.node stop (.directory entries)))
    (hpasses : Passes tree links place (names ++ more) passed) :
    Stays tree passed ∨ ∃ left, Passes tree left stop more passed := by
  generalize hspot : Spot.node stop (.directory entries) = spot at h
  induction h with
  | stop found =>
    obtain ⟨rfl, -⟩ := Spot.node.inj hspot
    exact Or.inr ⟨_, hpasses⟩
  | up above next ih =>
    rw [cons_append] at hpasses
    cases hpasses with
    | start => exact Or.inl (stays_of_directory above)
    | up _ rest => exact ih rest hspot
    | look _ named => exact absurd rfl named
    | follow _ named => exact absurd rfl named
    | enter _ named => exact absurd rfl named
  | follow above named link next ih =>
    rw [cons_append] at hpasses
    cases hpasses with
    | start => exact Or.inl (stays_of_directory above)
    | up => exact absurd rfl named
    | look => exact Or.inl ⟨_, link, nofun⟩
    | follow _ _ other rest =>
      obtain rfl := Label.link.inj (some.inj (link.symm.trans other))
      rw [← append_assoc] at rest
      exact ih rest hspot
    | enter _ _ entry solid =>
      exact absurd (some.inj (entry.symm.trans link)) (solid _)
  | enter above named entry solid next ih =>
    rw [cons_append] at hpasses
    cases hpasses with
    | start => exact Or.inl (stays_of_directory above)
    | up => exact absurd rfl named
    | look =>
      -- the entry is entered, so it is the directory itself or another one above something
      subst hspot
      obtain hplace | hdirectory := next.place_eq_or_view
      · have hview := view_of_at? next.at?_eq
        rw [Spot.place] at hplace
        rw [hplace] at hview
        exact Or.inl (stays_of_directory hview)
      · exact Or.inl (stays_of_directory hdirectory)
    | follow _ _ link =>
      exact absurd (some.inj (entry.symm.trans link)) (solid _)
    | enter _ _ _ _ rest => exact ih rest hspot
  | free above named vacant => cases hspot

theorem Leads.avoids_append (h : Leads tree links place names (.node stop (.directory entries)))
    (hmore : ∀ left, Avoids tree out left stop more) :
    Avoids tree out links place (names ++ more) := by
  intro passed hpasses hinside
  obtain hstays | ⟨left, hleft⟩ := h.passes_append hpasses
  · exact hstays
  · exact hmore left passed hleft hinside

/-- Names that are those of directories, but for the last one, are passed one by one. If the last one
is a link its target follows. -/
theorem Passes.prefix_or_link (h : Passes tree links place names passed) (hup : "..".toList ∉ names)
    (hway : ∀ first rest, names = first ++ rest → rest ≠ [] →
      tree.view (place ++ first) = some .directory) :
    passed <+: place ++ names ∨ ∃ target left, tree.view (place ++ names) = some (.link target) ∧
      Passes tree left (if target.absolute then [] else (place ++ names).dropLast) target.parts
        passed := by
  induction h with
  | start => exact Or.inl (prefix_append ..)
  | up above more ih => exact absurd mem_cons_self hup
  | @look links place rest name above named =>
    exact Or.inl ⟨rest, by simp⟩
  | @follow links place rest passed name target above named link more ih =>
    cases rest with
    | nil =>
      rw [append_nil] at more
      refine Or.inr ⟨target, links, link, ?_⟩
      rwa [dropLast_concat]
    | cons second rest =>
      have hdirectory := hway [name] (second :: rest) rfl (cons_ne_nil second rest)
      cases hdirectory.symm.trans link
  | @enter links place rest passed name label above named entry solid more ih =>
    have hsplit : place ++ name :: rest = place ++ [name] ++ rest := by simp
    rw [hsplit]
    refine ih (fun hmem => hup (mem_cons_of_mem _ hmem)) fun first others hrest hne => ?_
    have hdirectory := hway (name :: first) others (by rw [hrest]; rfl) hne
    rwa [append_cons] at hdirectory

/-- The links that stand outside a directory do not lead through it. -/
def LinksAvoid (tree : FileTree) (out : List Text) : Prop :=
  ∀ place target, ¬ out <+: place → tree.view place = some (.link target) →
    ∀ links, Avoids tree out links (if target.absolute then [] else place.dropLast) target.parts

/-- Below a directory the names on the way to a place outside `out` avoid it. -/
theorem LinksAvoid.avoids (h : LinksAvoid tree out) (hup : "..".toList ∉ names)
    (hway : ∀ first rest, names = first ++ rest → rest ≠ [] →
      tree.view (place ++ first) = some .directory)
    (hclear : ¬ out <+: place ++ names) (links : Nat) : Avoids tree out links place names := by
  intro passed hpasses hinside
  obtain hfront | ⟨target, left, hlink, htarget⟩ := hpasses.prefix_or_link hup hway
  · exact absurd (hinside.trans hfront) hclear
  · exact h _ target hclear hlink left passed htarget hinside

theorem LinksAvoid.avoids_entry (h : LinksAvoid tree out)
    (habove : tree.view place = some .directory) (hnamed : name ≠ "..".toList)
    (hclear : ¬ out <+: place ++ [name]) (links : Nat) : Avoids tree out links place [name] := by
  refine h.avoids (fun hmem => hnamed (mem_singleton.mp hmem).symm) ?_ hclear links
  intro first rest hsplit hne
  obtain ⟨rfl, -⟩ | ⟨-, rfl⟩ := singleton_eq_append_iff.mp hsplit
  · rwa [append_nil]
  · exact absurd rfl hne

def NoLinks (tree : FileTree) : Prop :=
  ∀ place target, tree.view place ≠ some (.link target)

theorem noLinks_file (content : Bytes) : (file content).NoLinks := by
  intro place target hview
  cases place <;> cases hview

theorem noLinks_directory (h : ∀ entry ∈ entries, entry.2.NoLinks) : (directory entries).NoLinks := by
  intro place target hview
  cases place with
  | nil => cases hview
  | cons name rest =>
    rw [view_cons] at hview
    obtain ⟨child, hentry, hchild⟩ := bind_eq_some_iff.mp hview
    exact h _ (mem_of_lookup hentry) rest target hchild

theorem NoLinks.linksAvoid (h : tree.NoLinks) (out : List Text) : LinksAvoid tree out :=
  fun place target _ hlink => absurd hlink (h place target)

theorem NoLinks.resolveNames_eq (h : tree.NoLinks) (hup : "..".toList ∉ names) :
    tree.resolveNames links place names = place ++ names := by
  induction names generalizing place with
  | nil => rw [resolveNames, append_nil]
  | cons name rest ih =>
    rw [mem_cons, not_or] at hup
    obtain ⟨hname, hrest⟩ := hup
    rw [resolveNames_enter (Ne.symm hname) (h _), ih hrest, append_assoc, singleton_append]

theorem NoLinks.prefix_of_passes (h : tree.NoLinks) (hpasses : Passes tree links place names passed)
    (hup : "..".toList ∉ names) :
    passed <+: place ++ names := by
  induction hpasses with
  | start => exact prefix_append ..
  | up above more ih => exact absurd mem_cons_self hup
  | @look links place rest name above named => exact ⟨rest, (append_cons ..).symm⟩
  | follow above named link more ih => exact absurd link (h _ _)
  | enter above named entry solid more ih =>
    rw [append_cons]
    exact ih fun hmem => hup (mem_cons_of_mem _ hmem)

theorem NoLinks.avoids (h : tree.NoLinks) (hup : "..".toList ∉ names)
    (hclear : ¬ out <+: place ++ names) : Avoids tree out links place names :=
  fun _ hpasses hinside => absurd (hinside.trans (h.prefix_of_passes hpasses hup)) hclear

end SourceAtlas.FileTree
