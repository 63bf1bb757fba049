import SourceAtlas.Proofs.Marker
import SourceAtlas.Proofs.Text.Drawn
import SourceAtlas.Route

/-!
# Markers are cut from the text

The text of a marker, the values of its arguments and so the literals among them have only
characters of the text that the marker was peeled off.
-/

namespace SourceAtlas

open List Option

variable {key value ending literal : Text} {entries : Entries Text Text} {position : Nat}
  {parts names : List Text}

variable {source text rest : Text} {marker : Marker} {markers : List Marker}

/-- Whether the name and text of a marker and the values of its arguments have only characters of a
text. -/
structure Marker.CutFrom (source : Text) (marker : Marker) : Prop where
  name : marker.name ⊆ source
  text : marker.text ⊆ source
  values : ∀ entries, marker.arguments = .listed entries → ∀ entry ∈ entries, entry.2 ⊆ source

theorem Marker.CutFrom.mono (h : marker.CutFrom text) (hsource : text ⊆ source) :
    marker.CutFrom source where
  name := Subset.trans h.name hsource
  text := Subset.trans h.text hsource
  values entries hentries entry hentry :=
    Subset.trans (h.values entries hentries entry hentry) hsource

/-! ## Arguments -/

theorem Entries.mem_put {entry : Text × Text} (h : entry ∈ Entries.put key value entries) :
    entry = (key, value) ∨ entry ∈ entries := by
  induction entries with
  | nil => exact Or.inl (mem_singleton.mp h)
  | cons first others ih =>
    obtain ⟨k, v⟩ := first
    rw [put] at h
    split at h
    · next hkey =>
      obtain heq | hlater := mem_cons.mp h
      · rw [beq_iff_eq.mp hkey] at heq
        exact Or.inl heq
      · exact Or.inr (mem_cons_of_mem _ hlater)
    · obtain heq | hlater := mem_cons.mp h
      · exact Or.inr (heq ▸ mem_cons_self)
      · exact (ih hlater).imp_right (mem_cons_of_mem _)

theorem namedArgument?_subset {part : Text} (h : namedArgument? part = some (key, value)) :
    value ⊆ part := by
  unfold namedArgument? at h
  split at h
  · next c tail =>
    split at h
    · dsimp only at h
      split at h
      · cases h
      · cases h
      · next d after _ _ htrim =>
        split at h
        · obtain ⟨-, rfl⟩ := Prod.mk.inj (some.inj h)
          have hdrop := subset_of_trimLeft_eq_cons htrim
          exact Subset.trans (trim_subset after)
            (Subset.trans hdrop (drop_subset _ _))
        · cases h
      · cases h
    · cases h
  · cases h

theorem fileArguments_subset (hentries : ∀ entry ∈ entries, entry.2 ⊆ source)
    (hparts : ∀ part ∈ parts, part ⊆ source) :
    ∀ entry ∈ fileArguments position entries parts, entry.2 ⊆ source := by
  have hput : ∀ {entries : Entries Text Text} (key : Text) {value : Text},
      (∀ entry ∈ entries, entry.2 ⊆ source) → value ⊆ source →
        ∀ entry ∈ Entries.put key value entries, entry.2 ⊆ source := by
    intro entries key value hentries hvalue entry hentry
    obtain rfl | hentry := Entries.mem_put hentry
    · exact hvalue
    · exact hentries entry hentry
  induction parts generalizing position entries with
  | nil => exact hentries
  | cons part parts ih =>
    have hpart := hparts part mem_cons_self
    have hlater := fun other hother => hparts other (mem_cons_of_mem part hother)
    rw [fileArguments]
    split
    · next key value hnamed =>
      exact ih (hput key hentries (Subset.trans (namedArgument?_subset hnamed) hpart)) hlater
    · exact ih (hput _ hentries hpart) hlater

theorem Arguments.parse_subset (h : Arguments.parse text = .listed entries) :
    ∀ entry ∈ entries, entry.2 ⊆ text := by
  unfold Arguments.parse at h
  dsimp only at h
  split at h
  · cases h
    exact fun entry hentry => absurd hentry not_mem_nil
  · split at h
    · cases h
    · next parts hparts =>
      split at h
      · cases h
      · cases h
        apply fileArguments_subset fun entry hentry => absurd hentry not_mem_nil
        exact fun part hpart =>
          Subset.trans (subset_of_mem_splitTopLevel hparts hpart) (trim_subset text)

/-! ## Building and peeling markers -/

theorem getD_subset {found? : Option Text} {other : Text} (hother : other ⊆ text)
    (h : ∀ found, found? = some found → found ⊆ text) : found?.getD other ⊆ text := by
  cases found? with
  | none => exact hother
  | some found => exact h found rfl

theorem dropTarget_subset (text : Text) : dropTarget text ⊆ text := by
  apply getD_subset (Subset.refl text)
  intro found hfound
  obtain ⟨target, -, htarget⟩ := exists_of_findSome?_eq_some hfound
  obtain ⟨after, hafter, hcolon⟩ := bind_eq_some_iff.mp htarget
  split at hcolon
  · next tail htrim =>
    obtain rfl := some.inj hcolon
    have htail := Subset.trans (trimLeft_subset tail) (subset_of_trimLeft_eq_cons htrim)
    exact Subset.trans htail (dropHead?_subset hafter)
  · cases hcolon

theorem invocationArguments?_subset {inner : Text} (h : invocationArguments? text = some inner) :
    inner ⊆ text := by
  unfold invocationArguments? at h
  split at h
  · obtain rfl := some.inj h
    exact nil_subset text
  · next tail htrim =>
    split at h
    · obtain rfl := some.inj h
      exact Subset.trans (dropLast_subset tail) (subset_of_trimLeft_eq_cons htrim)
    · cases h
  · cases h

theorem dropNameEnd_subset (ending name : Text) : dropNameEnd ending name ⊆ name := by
  unfold dropNameEnd
  split
  · exact dropEnd_subset _ name
  · exact Subset.refl name

theorem Marker.cutFrom_of_build? (h : Marker.build? ending text = some marker) :
    marker.CutFrom text := by
  unfold Marker.build? at h
  dsimp only at h
  split at h
  · split at h
    · obtain ⟨inner, hinner, rfl⟩ := map_eq_some_iff.mp h
      have hcut := Subset.trans (dropTarget_subset _) (trim_subset text)
      refine ⟨?_, trim_subset text, fun entries hentries entry hentry => ?_⟩
      · apply Subset.trans (dropNameEnd_subset _ _) (Subset.trans (afterLast_subset '.' _) _)
        exact Subset.trans (List.takeWhile_prefix _).subset hcut
      · have hvalue := Arguments.parse_subset hentries entry hentry
        exact Subset.trans (Subset.trans hvalue (invocationArguments?_subset hinner))
          (Subset.trans (drop_subset _ _) hcut)
    · cases h
  · cases h

theorem mapM_build?_cutFrom (h : parts.mapM (Marker.build? ending) = some markers)
    (hparts : ∀ part ∈ parts, part ⊆ source) :
    ∀ marker ∈ markers, marker.CutFrom source := by
  induction parts generalizing markers with
  | nil =>
    obtain rfl := some.inj h
    exact fun marker hmarker => absurd hmarker not_mem_nil
  | cons part parts ih =>
    rw [mapM_cons] at h
    obtain ⟨first, hfirst, h⟩ := bind_eq_some_iff.mp h
    obtain ⟨others, hothers, h⟩ := bind_eq_some_iff.mp h
    obtain rfl := some.inj h
    intro marker hmarker
    obtain rfl | hlater := mem_cons.mp hmarker
    · exact (Marker.cutFrom_of_build? hfirst).mono (hparts part mem_cons_self)
    · exact ih hothers (fun other hother => hparts other (mem_cons_of_mem part hother))
        marker hlater

theorem Dialect.readMarkers?_cutFrom {dialect : Dialect}
    (h : dialect.readMarkers? text = some (markers, rest)) :
    ∀ marker ∈ markers, marker.CutFrom text := by
  cases dialect with
  | csharp =>
    obtain ⟨-, close, parts, -, hparts, -, hfound, -⟩ := readBracketGroup?_eq_some_iff.mp h
    refine mapM_build?_cutFrom hfound fun part hpart => ?_
    exact Subset.trans (subset_of_mem_splitTopLevel hparts hpart)
      (Subset.trans (drop_subset _ _) (take_subset _ _))
  | typescript =>
    obtain ⟨tail, length, found, rfl, -, hfound, rfl, -⟩ := readDecorator?_eq_some_iff.mp h
    refine forall_mem_singleton.mpr ((Marker.cutFrom_of_build? hfound).mono ?_)
    exact subset_cons_of_subset _ (take_subset _ _)

theorem Dialect.peelWhile_cutFrom (dialect : Dialect) (text : Text) :
    ∀ marker ∈ (peelWhile dialect.readMarkers? text).1, marker.CutFrom text := by
  fun_induction peelWhile dialect.readMarkers? text with
  | case1 => exact fun marker hmarker => absurd hmarker not_mem_nil
  | case2 text markers rest hread _ more ih =>
    intro marker hmarker
    obtain hfirst | hlater := mem_append.mp hmarker
    · exact readMarkers?_cutFrom hread marker hfirst
    · exact (ih marker hlater).mono (readMarkers?_suffix hread).subset
  | case3 text markers rest hread _ => exact readMarkers?_cutFrom hread

theorem Dialect.peel_cutFrom (dialect : Dialect) (text : Text) :
    ∀ marker ∈ (dialect.peel text).1, marker.CutFrom text := by
  rw [peel_eq]
  intro marker hmarker
  exact (dialect.peelWhile_cutFrom _ marker hmarker).mono (trimLeft_subset text)

/-! ## Literals and routes -/

theorem unquote?_subset (h : unquote? value = some literal) : literal ⊆ value := by
  unfold unquote? at h
  dsimp only at h
  have hlead : ∀ value : Text, (if startsWith "@\"".toList value || startsWith "$\"".toList value
      then value.drop 1 else value) ⊆ value := by
    intro value
    split
    · exact drop_subset 1 value
    · exact Subset.refl value
  split at h
  · next quote tail hcons =>
    split at h
    · obtain rfl := some.inj h
      have hvalue : quote :: tail ⊆ value :=
        hcons ▸ Subset.trans (hlead _) (trim_subset value)
      have htail := Subset.trans (subset_cons_self quote tail) hvalue
      exact Subset.trans (dropLast_subset tail) htail
    · cases h
  · cases h

theorem positionalLiteral?_subset {fuel : Nat} (hentries : ∀ entry ∈ entries, entry.2 ⊆ source)
    (h : positionalLiteral? entries fuel position = some literal) : literal ⊆ source := by
  induction fuel generalizing position with
  | zero => cases h
  | succ fuel ih =>
    rw [positionalLiteral?] at h
    split at h
    · cases h
    · next value hvalue =>
      split at h
      · next found hfound =>
        obtain rfl := some.inj h
        obtain ⟨before, after, heq, -⟩ := lookup_eq_some_iff.mp hvalue
        have hmem : (natText position, value) ∈ entries := by
          rw [heq]
          exact mem_append_right before mem_cons_self
        exact Subset.trans (unquote?_subset hfound) (hentries _ hmem)
      · exact ih h

theorem Marker.CutFrom.literal?_subset (hmarker : marker.CutFrom source)
    (h : marker.literal? names = some literal) : literal ⊆ source := by
  unfold Marker.literal? at h
  split at h
  · cases h
  · next entries hlisted =>
    have hentries := hmarker.values entries hlisted
    split at h
    · next found hfound =>
      obtain rfl := some.inj h
      exact positionalLiteral?_subset hentries hfound
    · obtain ⟨entry, hentry, hvalue⟩ := exists_of_findSome?_eq_some h
      split at hvalue
      · exact Subset.trans (unquote?_subset hvalue) (hentries entry hentry)
      · cases hvalue

theorem markedRoute?_subset (hmarkers : ∀ marker ∈ markers, marker.CutFrom source) {route : Text}
    (h : markedRoute? names markers = some route) :
    route ⊆ source := by
  obtain ⟨marker, hmarker, hroute⟩ := exists_of_findSome?_eq_some h
  split at hroute
  · exact (hmarkers marker hmarker).literal?_subset (filter_eq_some_iff.mp hroute).1
  · cases hroute

end SourceAtlas
