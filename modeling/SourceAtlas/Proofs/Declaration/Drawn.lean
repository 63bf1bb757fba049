import SourceAtlas.Proofs.Declaration.Extent
import SourceAtlas.Proofs.Marker.Drawn
import SourceAtlas.Proofs.TypeText

/-!
# Declarations are drawn from the text

A header may go on over several lines. Its name has no blanks and the types of its clauses are
squeezed, and the markers of a declaration stand on one line each. So all that is said about a
declaration is drawn from the text without its line feeds.
-/

namespace SourceAtlas

open List

variable {clause rest name : Text} {bases : Option Text} {before : Option Char}
  {dialect : Dialect} {declaration : Declaration}

variable {source text : Text} {header : TypeHeader}

/-! ## Headers -/

/-- Whether the name and the clauses of a header are pieces of a text, the name without blanks. -/
structure TypeHeader.CutFrom (source : Text) (header : TypeHeader) : Prop where
  name : header.name ⊆ source
  solid : ∀ c ∈ header.name, isBlank c = false
  bases : ∀ clause ∈ header.bases, clause ⊆ source
  interfaces : ∀ clause ∈ header.interfaces, clause ⊆ source

theorem TypeHeader.CutFrom.mono (h : header.CutFrom text) (hsource : text ⊆ source) :
    header.CutFrom source where
  name := Subset.trans h.name hsource
  solid := h.solid
  bases clause hclause := Subset.trans (h.bases clause hclause) hsource
  interfaces clause hclause := Subset.trans (h.interfaces clause hclause) hsource

theorem CSharp.typeHeaderAt?_cutFrom (h : typeHeaderAt? before text = some header) :
    header.CutFrom text := by
  obtain ⟨named, place, hnamed, hplace, hclauses, hname, hinterfaces⟩ := exists_of_typeHeaderAt? h
  have hsource : named ⊆ text := hnamed.extent.1.subset
  have hpiece := Subset.trans (namedEnds_suffix hplace).subset hsource
  have hbases := (clausesAt?_extent hclauses).2
  refine ⟨?_, ?_, fun clause hclause => Subset.trans (hbases clause hclause) hpiece, ?_⟩
  · rw [hname]
    exact Subset.trans (List.takeWhile_prefix _).subset hsource
  · rw [hname]
    exact fun c hc => isBlank_eq_false_of_isWord (mem_takeWhile_imp hc)
  · rw [hinterfaces]
    exact fun clause hclause => by cases hclause

theorem TypeScript.typeHeaderAt?_cutFrom (h : typeHeaderAt? before text = some header) :
    header.CutFrom text := by
  obtain ⟨after, start, hnamed, hstart, hclauses⟩ := exists_of_typeHeaderAt? h
  have hsource := hnamed.extent.1.subset
  have hpiece : start ⊆ text := Subset.trans (clauseStarts_suffix hstart).subset
    (Subset.trans (subset_append_right _ after) hsource)
  obtain ⟨-, hbases, hinterfaces⟩ := clausesAt?_extent hclauses
  obtain ⟨keyword, kind, behind, -, hsplit⟩ := hnamed
  obtain ⟨⟨name, hname⟩, -, -⟩ := of_splitName?_eq_some hsplit
  refine ⟨Subset.trans (subset_append_left _ after) hsource, ?_,
    fun clause hclause => Subset.trans (hbases clause hclause) hpiece,
    fun clause hclause => Subset.trans (hinterfaces clause hclause) hpiece⟩
  obtain ⟨c, tail, hcons, hopens, htail⟩ := name.exists_cons
  rw [← hname, hcons, forall_mem_cons]
  exact ⟨isBlank_eq_false_of_isNameChar (isNameChar_of_isPlainStart hopens),
    fun d hd => isBlank_eq_false_of_isNameChar (htail d hd)⟩

theorem Dialect.typeHeaderAt?_cutFrom (h : dialect.typeHeaderAt? before text = some header) :
    header.CutFrom text := by
  cases dialect with
  | csharp => exact CSharp.typeHeaderAt?_cutFrom h
  | typescript => exact TypeScript.typeHeaderAt?_cutFrom h

/-! ## Declarations -/

/-- Whether all that is said about a declaration is drawn from a source. -/
structure Declaration.IsDrawnFrom (source : Text) (declaration : Declaration) : Prop where
  name : declaration.name ⊆ source
  trimmed : trim declaration.name = declaration.name
  baseTypes : ∀ type ∈ declaration.baseTypes, DrawnFrom source type
  interfaces : ∀ type ∈ declaration.interfaces, DrawnFrom source type
  markers : ∀ marker ∈ declaration.markers, marker.CutFrom source
  routeBase : DrawnFrom source declaration.routeBase

theorem markerLinesAbove_cutFrom {budget : Nat} {above : List Text}
    (habove : ∀ raw ∈ above, raw ⊆ source) :
    ∀ markers ∈ markerLinesAbove dialect budget above, ∀ marker ∈ markers, marker.CutFrom source := by
  have hnone : ∀ markers ∈ ([] : List (List Marker)), ∀ marker ∈ markers, marker.CutFrom source :=
    fun markers hmarkers => absurd hmarkers not_mem_nil
  induction above generalizing budget with
  | nil =>
    cases budget with
    | zero => exact hnone
    | succ less => exact hnone
  | cons raw rest ih =>
    have hlater := fun other hother => habove other (mem_cons_of_mem raw hother)
    have hline := Subset.trans (trim_subset raw) (habove raw mem_cons_self)
    cases budget with
    | zero => exact hnone
    | succ less =>
      rw [markerLinesAbove]
      dsimp only
      split
      · exact ih hlater
      · split
        · exact ih hlater
        · split
          · exact hnone
          · intro markers hmarkers marker hmarker
            obtain rfl | hmarkers := mem_cons.mp hmarkers
            · exact (dialect.peel_cutFrom _ marker hmarker).mono hline
            · exact ih hlater markers hmarkers marker hmarker

theorem declarationMarkers_cutFrom {dialect : Dialect} {above sameLine : Text} (habove : above ⊆ text)
    (hsame : sameLine ⊆ unbroken text) :
    ∀ marker ∈ declarationMarkers dialect above sameLine, marker.CutFrom (unbroken text) := by
  intro marker hmarker
  unfold declarationMarkers at hmarker
  obtain hmarker | hmarker := mem_append.mp hmarker
  · obtain ⟨markers, hmarkers, hmarker⟩ := mem_flatten.mp hmarker
    apply markerLinesAbove_cutFrom _ markers (mem_reverse.mp hmarkers) marker hmarker
    exact fun raw hraw => subset_unbroken_of_mem_lines (mem_reverse.mp hraw) habove
  · exact (dialect.peel_cutFrom sameLine marker hmarker).mono hsame

theorem routeBase_drawn {kind : TypeKind} {markers : List Marker} (hname : name ⊆ source)
    (hmarkers : ∀ marker ∈ markers, marker.CutFrom source) :
    DrawnFrom source (dialect.routeBase kind name markers) := by
  have hstem := Subset.trans (dropNameEnd_subset controllerEnding name) hname
  unfold Dialect.routeBase
  split
  · dsimp only
    split
    · next route hroute =>
      apply DrawnFrom.of_subset
      apply Subset.trans (replaceFrom_subset _ _ 0 route)
      exact append_subset.mpr ⟨markedRoute?_subset hmarkers hroute, hstem⟩
    · split
      · exact .nil source
      · exact .of_subset hstem
  · exact .nil source

theorem declarationAt?_drawn {start stop : Nat} (hheader : header.CutFrom text)
    (h : declarationAt? dialect text (start, stop, header) = some declaration) :
    declaration.IsDrawnFrom (unbroken text) := by
  simp only [declarationAt?] at h
  split at h
  · obtain rfl := Option.some.inj h
    have hname : header.name ⊆ unbroken text := subset_unbroken_of_solid hheader.name hheader.solid
    have hbefore := take_subset start text
    have hmarkers := @declarationMarkers_cutFrom text dialect _ _
      (Subset.trans (dropEnd_subset (afterLast '\n' (text.take start)).length _) hbefore)
      (subset_unbroken (Subset.trans (afterLast_subset '\n' _) hbefore) (notMem_afterLast '\n' _))
    have htypes : ∀ {clause? : Option Text}, (∀ clause ∈ clause?, clause ⊆ text) →
        ∀ type ∈ (clause?.map splitTypeList).getD [], DrawnFrom (unbroken text) type := by
      intro clause? hclause type htype
      cases clause? with
      | none => cases htype
      | some clause => exact splitTypeList_drawn (hclause clause rfl) type htype
    exact
      { name := hname
        trimmed := trim_of_solid hheader.solid
        baseTypes := htypes hheader.bases
        interfaces := htypes hheader.interfaces
        markers := hmarkers
        routeBase := routeBase_drawn hname hmarkers }
  · cases h

theorem locateDeclarations_drawn (h : declaration ∈ locateDeclarations dialect text) :
    declaration.IsDrawnFrom (unbroken text) := by
  obtain ⟨⟨start, stop, header⟩, hmem, hdeclaration⟩ := mem_filterMap.mp h
  obtain ⟨front, rest, rfl, -, -, hheader, -⟩ := exists_of_mem_headersFrom hmem
  apply declarationAt?_drawn _ hdeclaration
  exact (Dialect.typeHeaderAt?_cutFrom hheader).mono (subset_append_right front rest)

end SourceAtlas
