import SourceAtlas.EnumConstant
import SourceAtlas.Proofs.Header.Drawn
import SourceAtlas.Proofs.Member.Run

/-!
# Members are drawn from the lines of the body

At every place of a scan the header that is read, the lines that continue it and the markers above
it are lines of the body. So all that is said about a member is drawn from these lines. The members
that are left out never appear.
-/

namespace SourceAtlas

open List Option

variable {interfaceLike : Bool} {below above : List Text} {body number : Text}

variable {source text : Text} {dialect : Dialect} {member : Member}

/-- Whether all that is said about a member is drawn from a source. -/
structure Member.IsDrawnFrom (source : Text) (member : Member) : Prop where
  name : DrawnFrom source member.name
  trimmed : trim member.name = member.name
  declaredType : DrawnFrom source member.declaredType
  signature : DrawnFrom source member.signature
  markers : ∀ marker ∈ member.markers, marker.CutFrom source

theorem codeOf_subset (raw : Text) : codeOf raw ⊆ raw := by
  obtain ⟨more, hmore, -⟩ := exists_codeOf_append raw
  exact Subset.trans (IsPrefix.subset ⟨more, hmore.symm⟩) (trimLeft_subset raw)

/-! ## One header -/

theorem buildMember?_drawn {markers : List Marker} {follows : Bool} (htext : DrawnFrom source text)
    (hmarkers : ∀ marker ∈ markers, marker.CutFrom source)
    (h : buildMember? dialect text markers interfaceLike follows = some member) :
    member.IsDrawnFrom source := by
  rw [buildMember?_eq_bind] at h
  obtain ⟨header, hheader, h⟩ := bind_eq_some_iff.mp h
  obtain ⟨signature, hsignature, h⟩ := bind_eq_some_iff.mp h
  obtain ⟨final, hfinal, rfl⟩ := map_eq_some_iff.mp h
  have hdrawn := htext.trans (Dialect.trimmed?_drawn hheader hsignature)
  obtain ⟨hname, htrim, htype⟩ := Dialect.tokenize_drawn hfinal
  exact ⟨hdrawn.subset hname, htrim, hdrawn.trans htype, hdrawn, hmarkers⟩

theorem continueHeader?_drawn {openParen limit used : Nat} {joined : Text}
    (htext : DrawnFrom source text) (hbelow : ∀ raw ∈ below, raw ⊆ source)
    (h : continueHeader? openParen limit text below = some (joined, used)) :
    DrawnFrom source joined := by
  refine of_continueHeader? htext (fun raw hraw text htext => ?_) h
  have hcode : DrawnFrom source (codeOf raw) :=
    .of_subset (Subset.trans (codeOf_subset raw) (hbelow raw hraw))
  have hspace : DrawnFrom source [' '] := .of_joints (by decide)
  exact htext.append (hspace.append hcode)

theorem headerLine?_drawn {line : Text} {header : HeaderLine} (hline : line ⊆ source)
    (hbelow : ∀ raw ∈ below, raw ⊆ source)
    (h : headerLine? dialect interfaceLike line below = some header) :
    DrawnFrom source header.text ∧ ∀ marker ∈ header.inline, marker.CutFrom source := by
  have hrest : DrawnFrom source (dialect.peel line).2 :=
    .of_subset (Subset.trans (dialect.peel_suffix line).subset hline)
  have hinline : ∀ marker ∈ (dialect.peel line).1, marker.CutFrom source :=
    fun marker hmarker => (dialect.peel_cutFrom line marker hmarker).mono hline
  unfold headerLine? at h
  dsimp only at h
  split at h
  · cases h
  · obtain ⟨found, -, h⟩ := bind_eq_some_iff.mp h
    split at h
    · split at h
      · obtain rfl := some.inj h
        exact ⟨hrest, hinline⟩
      · obtain ⟨⟨joined, used⟩, hjoined, heq⟩ := map_eq_some_iff.mp h
        obtain rfl := heq
        exact ⟨continueHeader?_drawn hrest hbelow hjoined, hinline⟩
    · obtain rfl := some.inj h
      exact ⟨hrest, hinline⟩

theorem memberMarkerLines_cutFrom (habove : ∀ raw ∈ above, raw ⊆ source) :
    ∀ markers ∈ memberMarkerLines dialect above, ∀ marker ∈ markers, marker.CutFrom source := by
  induction above with
  | nil => exact fun markers hmarkers => absurd hmarkers not_mem_nil
  | cons raw rest ih =>
    have hlater := ih fun other hother => habove other (mem_cons_of_mem raw hother)
    have hline := Subset.trans (codeOf_subset raw) (habove raw mem_cons_self)
    rw [memberMarkerLines]
    dsimp only
    split
    · exact hlater
    · split
      · exact fun markers hmarkers => absurd hmarkers not_mem_nil
      · intro markers hmarkers marker hmarker
        obtain rfl | hmarkers := mem_cons.mp hmarkers
        · exact (dialect.peel_cutFrom _ marker hmarker).mono hline
        · exact hlater markers hmarkers marker hmarker

theorem memberMarkersAbove_cutFrom (habove : ∀ raw ∈ above, raw ⊆ source) :
    ∀ marker ∈ memberMarkersAbove dialect above, marker.CutFrom source := by
  intro marker hmarker
  obtain ⟨markers, hmarkers, hmarker⟩ := mem_flatten.mp hmarker
  apply memberMarkerLines_cutFrom _ markers (mem_reverse.mp hmarkers) marker hmarker
  exact fun raw hraw => habove raw (take_subset _ _ hraw)

/-! ## All members of a body -/

theorem MemberScan.member?_drawn {scan : MemberScan} {state : ScanState}
    (habove : ∀ raw ∈ state.above, raw ⊆ source) (hbelow : ∀ raw ∈ state.below, raw ⊆ source)
    (h : scan.member? state = some member) :
    member.IsDrawnFrom source ∧
      (scan.interfaceLike = false → isSuppressed scan.typeName member.name = false) := by
  obtain ⟨header, hheader, h⟩ := bind_eq_some_iff.mp h
  obtain ⟨hbuild, hshown⟩ := filter_eq_some_iff.mp h
  have hdrawn : DrawnFrom source header.text ∧ ∀ marker ∈ header.inline, marker.CutFrom source := by
    obtain ⟨depth, above, below⟩ := state
    cases below with
    | nil => cases hheader
    | cons raw rest =>
      change (if _ then none else headerLine? _ _ (codeOf raw) rest) = some header at hheader
      rw [ite_none_left_eq_some] at hheader
      apply headerLine?_drawn _ _ hheader.2
      · exact Subset.trans (codeOf_subset raw) (hbelow raw mem_cons_self)
      · exact fun other hother => hbelow other (mem_cons_of_mem raw hother)
  constructor
  · apply buildMember?_drawn hdrawn.1 _ hbuild
    intro marker hmarker
    obtain hmarker | hmarker := mem_append.mp hmarker
    · exact memberMarkersAbove_cutFrom habove marker hmarker
    · exact hdrawn.2 marker hmarker
  · intro hplain
    rw [hplain, Bool.false_or, Bool.not_eq_true'] at hshown
    exact hshown

theorem scanMembers_eq_run (dialect : Dialect) (typeName : Text) (kind : TypeKind) (body : Text) :
    scanMembers dialect typeName kind body =
      (MemberScan.run ⟨dialect, typeName, kind.isInterfaceLike⟩ (lines body).length
        ⟨0, [], lines body⟩).filterMap
          (MemberScan.member? ⟨dialect, typeName, kind.isInterfaceLike⟩) :=
  MemberScan.members_eq_run ⟨dialect, typeName, kind.isInterfaceLike⟩
    (le_refl (ScanState.mk 0 [] (lines body)).below.length)

/-- The members of a body are drawn from its lines, and those of a class or record are not among the
ones that are left out. -/
theorem scanMembers_drawn {typeName : Text} {kind : TypeKind}
    (hlines : ∀ row ∈ lines body, row ⊆ source) :
    ∀ member ∈ scanMembers dialect typeName kind body, member.IsDrawnFrom source ∧
      (kind.isInterfaceLike = false → isSuppressed typeName member.name = false) := by
  intro member hmember
  rw [scanMembers_eq_run] at hmember
  obtain ⟨state, hstate, hmember⟩ := mem_filterMap.mp hmember
  have hall : state.above.reverse ++ state.below = lines body :=
    MemberScan.above_append_below_of_mem_run _ hstate
  apply MemberScan.member?_drawn _ _ hmember
  · intro raw hraw
    apply hlines
    rw [← hall]
    exact mem_append_left _ (mem_reverse.mpr hraw)
  · intro raw hraw
    apply hlines
    rw [← hall]
    exact mem_append_right _ hraw

/-! ## Constants -/

theorem unsignedNumber?_subset (h : unsignedNumber? text = some number) : number ⊆ text := by
  have hplain : ∀ {number : Text}, (if (text.takeWhile isDecimalDigit).isEmpty then none
      else some (text.takeWhile isDecimalDigit)) = some number → number ⊆ text := by
    intro number hnumber
    split at hnumber
    · cases hnumber
    · obtain rfl := some.inj hnumber
      exact (List.takeWhile_prefix _).subset
  unfold unsignedNumber? at h
  dsimp only at h
  split at h
  · next x rest =>
    split at h
    · obtain rfl := some.inj h
      apply cons_subset_cons
      exact cons_subset_cons x (List.takeWhile_prefix _).subset
    · exact hplain h
  · exact hplain h

theorem integerLiteral?_subset (h : integerLiteral? text = some number) : number ⊆ text := by
  unfold integerLiteral? at h
  split at h
  · obtain ⟨digits, hdigits, rfl⟩ := map_eq_some_iff.mp h
    exact cons_subset_cons _ (unsignedNumber?_subset hdigits)
  · exact unsignedNumber?_subset h

theorem enumConstant?_drawn {constant : Text} (h : enumConstant? text = some constant) :
    DrawnFrom text constant := by
  unfold enumConstant? at h
  split at h
  · next c tail =>
    have hname : DrawnFrom (c :: tail) ((c :: tail).takeWhile isWord) :=
      .of_subset (List.takeWhile_prefix _).subset
    split at h
    · dsimp only at h
      split at h
      · next rest htrim =>
        split at h
        · next value hvalue =>
          obtain rfl := some.inj h
          have hrest := Subset.trans (subset_of_trimLeft_eq_cons htrim)
            (drop_subset _ _)
          have hnumber := Subset.trans (integerLiteral?_subset hvalue)
            (Subset.trans (trimLeft_subset rest) hrest)
          exact (hname.append (.of_joints (by decide))).append (.of_subset hnumber)
        · obtain rfl := some.inj h
          exact hname
      · obtain rfl := some.inj h
        exact hname
    · cases h
  · cases h

theorem scanEnumValues_drawn (hlines : ∀ row ∈ lines body, row ⊆ source) :
    ∀ value ∈ scanEnumValues dialect body, DrawnFrom source value := by
  intro value hvalue
  obtain ⟨row, hrow, hvalue⟩ := mem_flatMap.mp hvalue
  unfold lineConstants at hvalue
  dsimp only at hvalue
  split at hvalue
  · cases hvalue
  · obtain ⟨part, hpart, hvalue⟩ := mem_filterMap.mp hvalue
    have hsubset := Subset.trans (Subset.trans (trim_subset part) (subset_of_mem_splitOn hpart))
      (dialect.peel_suffix (codeOf row)).subset
    have hline := Subset.trans hsubset (Subset.trans (codeOf_subset row) (hlines row hrow))
    exact .trans (.of_subset hline) (enumConstant?_drawn hvalue)

end SourceAtlas
