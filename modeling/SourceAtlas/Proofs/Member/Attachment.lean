import SourceAtlas.Proofs.Member.NestedHeader

/-!
# Markers and the member they stand above

Each member looks for its markers upwards, on its own. It collects the lines of one block: the longest
run of blank lines, comments and lines of markers directly above its header, within a window. A header
has code behind its own markers, so it ends the block of every later header, and no line gives its
markers to two members.
-/

namespace SourceAtlas

open List Option

namespace Dialect

def isMarkerLine (dialect : Dialect) (row : Text) : Bool :=
  !dialect.passesOver row && !(dialect.peel (codeOf row)).1.isEmpty &&
    (dialect.peel (codeOf row)).2.isEmpty

/-- Whether a line may stand between a header and its markers: it is blank, a comment or a line of
markers. -/
def staysInBlock (dialect : Dialect) (row : Text) : Bool :=
  dialect.passesOver row || dialect.isMarkerLine row

def lineMarkers (dialect : Dialect) (row : Text) : List Marker :=
  if dialect.isMarkerLine row then (dialect.peel (codeOf row)).1 else []

/-- Whether the lines from `start` on are the block above the line `header`: they reach down to it, are
all of the right kind and at most twelve, and no further line above them belongs to them. -/
structure IsMarkerBlock (dialect : Dialect) (rows : List Text) (start header : Nat) : Prop where
  start_le : start ≤ header
  header_le : header ≤ start + memberLookback
  stays : ∀ line row, start ≤ line → line < header → rows[line]? = some row →
    dialect.staysInBlock row = true
  maximal : start = 0 ∨ header = start + memberLookback ∨
    ∃ row, rows[start - 1]? = some row ∧ dialect.staysInBlock row = false

end Dialect

variable {dialect : Dialect} {interfaceLike : Bool}

/-! ## The walk up from a header -/

theorem flatten_memberMarkerLines (dialect : Dialect) (above : List Text) :
    (memberMarkerLines dialect above).reverse.flatten =
      (above.takeWhile dialect.staysInBlock).reverse.flatMap dialect.lineMarkers := by
  induction above with
  | nil => rfl
  | cons raw rest ih =>
    rw [memberMarkerLines]
    by_cases hpass : dialect.passesOver raw = true
    · have hline : ((codeOf raw).isEmpty || dialect.isComment (codeOf raw)) = true := hpass
      simp [hline, Dialect.staysInBlock, Dialect.lineMarkers,
        Dialect.isMarkerLine, hpass, ih]
    · have hline : ((codeOf raw).isEmpty || dialect.isComment (codeOf raw)) = false := by
        simpa [Dialect.passesOver] using hpass
      simp only [hline, Bool.false_eq_true, if_false]
      by_cases hmarkers : dialect.isMarkerLine raw = true
      · have hpeel : ((dialect.peel (codeOf raw)).1.isEmpty ||
            !(dialect.peel (codeOf raw)).2.isEmpty) = false := by
          simp only [Dialect.isMarkerLine, Bool.and_eq_true, Bool.not_eq_true'] at hmarkers
          rw [hmarkers.1.2, hmarkers.2]
          rfl
        simp [hpeel, Dialect.staysInBlock, Dialect.lineMarkers, hmarkers, ih]
      · have hpeel : ((dialect.peel (codeOf raw)).1.isEmpty ||
            !(dialect.peel (codeOf raw)).2.isEmpty) = true := by
          rw [Bool.not_eq_true] at hpass
          simpa [Dialect.isMarkerLine, hpass, Decidable.imp_iff_not_or] using hmarkers
        simp [hpeel, Dialect.staysInBlock, hmarkers, hpass]

/-- How many lines the block above a header has; `above` are the lines above it, nearest first. -/
def blockLength (dialect : Dialect) (above : List Text) : Nat :=
  ((above.take memberLookback).takeWhile dialect.staysInBlock).length

theorem take_blockLength (dialect : Dialect) (above : List Text) :
    above.take (blockLength dialect above) =
      (above.take memberLookback).takeWhile dialect.staysInBlock := by
  have hfront : (above.take memberLookback).takeWhile dialect.staysInBlock <+: above :=
    (List.takeWhile_prefix _).trans (List.take_prefix _ _)
  exact (prefix_iff_eq_take.mp hfront).symm

theorem blockLength_le (dialect : Dialect) (above : List Text) :
    blockLength dialect above ≤ memberLookback ∧ blockLength dialect above ≤ above.length := by
  have hle := (List.takeWhile_prefix (l := above.take memberLookback) dialect.staysInBlock).length_le
  rw [length_take] at hle
  exact ⟨hle.trans (Nat.min_le_left _ _), hle.trans (Nat.min_le_right _ _)⟩

section

variable (dialect) (above below : List Text)

theorem getElem?_reverse_append {line : Nat} (h : line < above.length) :
    (above.reverse ++ below)[line]? = above[above.length - 1 - line]? := by
  rw [getElem?_append_left (by rwa [length_reverse]), getElem?_reverse h]

/-- The first line that is not in the block, if the window and the lines above leave room for one. -/
theorem getElem?_blockLength (hwindow : blockLength dialect above < memberLookback)
    (hlength : blockLength dialect above < above.length) :
    ∃ row, above[blockLength dialect above]? = some row ∧ dialect.staysInBlock row = false := by
  have hsplit := takeWhile_append_dropWhile (p := dialect.staysInBlock)
    (l := above.take memberLookback)
  cases hrest : (above.take memberLookback).dropWhile dialect.staysInBlock with
  | nil =>
    rw [hrest, append_nil] at hsplit
    have hall := congrArg length hsplit
    rw [length_take] at hall
    change blockLength dialect above = _ at hall
    omega
  | cons row more =>
    refine ⟨row, ?_, ?_⟩
    · rw [← getElem?_take_of_lt hwindow, ← hsplit, hrest, blockLength,
        getElem?_append_right (Nat.le_refl _), Nat.sub_self, getElem?_cons_zero]
    · have hhead := head?_dropWhile_not dialect.staysInBlock (above.take memberLookback)
      rw [hrest] at hhead
      simpa using hhead

theorem isMarkerBlock_above :
    dialect.IsMarkerBlock (above.reverse ++ below) (above.length - blockLength dialect above)
      above.length := by
  obtain ⟨hwindow, hlength⟩ := blockLength_le dialect above
  refine ⟨Nat.sub_le _ _, by omega, ?_, ?_⟩
  · intro line row hstart hline hrow
    rw [getElem?_reverse_append above below hline] at hrow
    have hmem : row ∈ above.take (blockLength dialect above) := by
      apply mem_of_getElem? (i := above.length - 1 - line)
      rw [getElem?_take_of_lt (by omega)]
      exact hrow
    rw [take_blockLength] at hmem
    exact mem_takeWhile_imp hmem
  · by_cases htop : blockLength dialect above = above.length
    · exact .inl (by omega)
    · by_cases hfull : blockLength dialect above = memberLookback
      · exact .inr (.inl (by omega))
      · obtain ⟨row, hrow, hends⟩ := getElem?_blockLength dialect above (by omega) (by omega)
        refine .inr (.inr ⟨row, ?_, hends⟩)
        rw [getElem?_reverse_append above below (by omega)]
        convert hrow using 2
        omega

theorem memberMarkersAbove_eq_flatMap :
    memberMarkersAbove dialect above =
      (((above.reverse ++ below).take above.length).drop
        (above.length - blockLength dialect above)).flatMap dialect.lineMarkers := by
  have hwindow := (blockLength_le dialect above).2
  have hblock : ((above.reverse ++ below).take above.length).drop
      (above.length - blockLength dialect above) =
        (above.take (blockLength dialect above)).reverse := by
    rw [take_left' length_reverse, drop_reverse]
    congr 2
    omega
  rw [hblock, take_blockLength, memberMarkersAbove, flatten_memberMarkerLines]

end

/-! ## Headers -/

theorem inline_of_headerLine? {line : Text} {below : List Text}
    {header : HeaderLine} (h : headerLine? dialect interfaceLike line below = some header) :
    header.inline = (dialect.peel line).1 ∧ (dialect.peel line).2 ≠ [] := by
  unfold headerLine? at h
  dsimp only at h
  split at h
  · cases h
  · next hplain =>
    have hne : (dialect.peel line).2 ≠ [] := by
      intro hnil
      simp [hnil] at hplain
    refine ⟨?_, hne⟩
    obtain ⟨found, -, h⟩ := bind_eq_some_iff.mp h
    split at h
    · split at h
      · obtain rfl := some.inj h
        rfl
      · obtain ⟨⟨joined, used⟩, -, heq⟩ := map_eq_some_iff.mp h
        obtain rfl := heq
        rfl
    · obtain rfl := some.inj h
      rfl

theorem markers_of_buildMember? {text : Text} {markers : List Marker} {follows : Bool}
    {member : Member} (h : buildMember? dialect text markers interfaceLike follows = some member) :
    member.markers = markers := by
  rw [buildMember?_eq_bind] at h
  obtain ⟨header, -, h⟩ := bind_eq_some_iff.mp h
  obtain ⟨signature, -, h⟩ := bind_eq_some_iff.mp h
  obtain ⟨final, -, rfl⟩ := map_eq_some_iff.mp h
  rfl

/-- Whether a member is read off a header that starts on the given line. -/
def Member.StartsOn (dialect : Dialect) (interfaceLike : Bool) (rows : List Text) (line : Nat)
    (member : Member) : Prop :=
  ∃ row header follows, rows[line]? = some row ∧ dialect.passesOver row = false ∧
    headerLine? dialect interfaceLike (codeOf row) (rows.drop (line + 1)) = some header ∧
    buildMember? dialect header.text member.markers interfaceLike follows = some member

theorem Member.StartsOn.staysInBlock_eq_false {rows : List Text} {line : Nat}
    {member : Member} (h : member.StartsOn dialect interfaceLike rows line) :
    ∃ row, rows[line]? = some row ∧ dialect.staysInBlock row = false := by
  obtain ⟨row, header, -, hrow, hpass, hheader, -⟩ := h
  have hrest := (inline_of_headerLine? hheader).2
  refine ⟨row, hrow, ?_⟩
  simp [Dialect.staysInBlock, Dialect.isMarkerLine, hpass, hrest]

namespace MemberScan

variable (scan : MemberScan) {steps : Nat} {start state : ScanState} {member : Member}

/-- A member at a place of a scan starts on the next line and has the markers of the block above it,
followed by its own. -/
theorem of_member?_eq_some (h : scan.member? state = some member) :
    member.StartsOn scan.dialect scan.interfaceLike (state.above.reverse ++ state.below)
        state.above.length ∧
      ∃ row, (state.above.reverse ++ state.below)[state.above.length]? = some row ∧
        member.markers =
          memberMarkersAbove scan.dialect state.above ++ (scan.dialect.peel (codeOf row)).1 := by
  obtain ⟨header, hheader, h⟩ := bind_eq_some_iff.mp h
  obtain ⟨hbuild, -⟩ := filter_eq_some_iff.mp h
  obtain ⟨depth, above, below⟩ := state
  cases below with
  | nil => cases hheader
  | cons raw rest =>
    change (if _ then none else headerLine? _ _ (codeOf raw) rest) = some header at hheader
    rw [ite_none_left_eq_some, Bool.or_eq_true, not_or, Bool.not_eq_true] at hheader
    obtain ⟨⟨hpass, -⟩, hheader⟩ := hheader
    have hmarkers := markers_of_buildMember? hbuild
    have hrow : (above.reverse ++ raw :: rest)[above.length]? = some raw := by simp
    refine ⟨⟨raw, header, _, hrow, hpass, ?_, hmarkers ▸ hbuild⟩, raw, hrow, ?_⟩
    · rw [append_cons, drop_left' (by simp)]
      exact hheader
    · rw [hmarkers, (inline_of_headerLine? hheader).1]

theorem length_below_of_mem_run (h : state ∈ scan.run steps start) :
    state.below.length ≤ start.below.length := by
  induction steps generalizing start with
  | zero => cases h
  | succ steps ih =>
    rcases mem_cons.mp h with rfl | h
    · exact Nat.le_refl _
    · exact (ih h).trans (scan.below_next_suffix start).length_le

theorem pairwise_run (steps : Nat) (start : ScanState) :
    (scan.run steps start).Pairwise fun first second =>
      second.below ≠ [] → first.above.length < second.above.length := by
  induction steps generalizing start with
  | zero => exact Pairwise.nil
  | succ steps ih =>
    refine pairwise_cons.mpr ⟨?_, ih (scan.next start)⟩
    intro state hstate hbelow
    have hlines := scan.above_append_below_of_mem_run hstate
    rw [scan.above_append_below_next] at hlines
    have hlength := congrArg length hlines
    rw [length_append, length_append, length_reverse, length_reverse] at hlength
    have hle := scan.length_below_of_mem_run hstate
    by_cases hend : start.below = []
    · have hnil := suffix_nil.mp (hend ▸ scan.below_next_suffix start)
      rw [hnil, length_nil, Nat.le_zero, length_eq_zero_iff] at hle
      exact absurd hle hbelow
    · have hlt := scan.length_next_lt hend
      omega

end MemberScan

/-! ## All members of a body -/

theorem of_mem_membersByLine {typeName : Text} {kind : TypeKind} {body : Text}
    {entry : Nat × Member} (h : entry ∈ membersByLine dialect typeName kind body) :
    ∃ above below, lines body = above.reverse ++ below ∧ above.length = entry.1 ∧
      entry.2.StartsOn dialect kind.isInterfaceLike (lines body) entry.1 ∧
      ∃ row, (lines body)[entry.1]? = some row ∧
        entry.2.markers = memberMarkersAbove dialect above ++ (dialect.peel (codeOf row)).1 := by
  obtain ⟨state, hstate, hentry⟩ := mem_filterMap.mp h
  obtain ⟨member, hmember, rfl⟩ := map_eq_some_iff.mp hentry
  have hlines : state.above.reverse ++ state.below = lines body :=
    MemberScan.above_append_below_of_mem_run _ hstate
  obtain ⟨hstarts, row, hrow, hmarkers⟩ := MemberScan.of_member?_eq_some _ hmember
  rw [hlines] at hstarts hrow
  exact ⟨state.above, state.below, hlines.symm, rfl, hstarts, row, hrow, hmarkers⟩

theorem pairwise_membersByLine (dialect : Dialect) (typeName : Text) (kind : TypeKind)
    (body : Text) :
    (membersByLine dialect typeName kind body).Pairwise fun first second => first.1 < second.1 := by
  apply Pairwise.filterMap _ _ (MemberScan.pairwise_run _ _ _)
  intro first second hlt entry hentry later hlater
  obtain ⟨member, hmember, rfl⟩ := map_eq_some_iff.mp hentry
  obtain ⟨other, hother, rfl⟩ := map_eq_some_iff.mp hlater
  apply hlt
  rintro hnil
  obtain ⟨depth, above, below⟩ := second
  subst hnil
  cases hother

/-- The markers of a member are those of the block directly above its header, in source order, and then
those on the line of the header itself. The blocks and header lines of different members share no
line. -/
theorem membersByLine_markers (dialect : Dialect) (typeName : Text) (kind : TypeKind) (body : Text) :
    (membersByLine dialect typeName kind body).map Prod.snd =
        scanMembers dialect typeName kind body ∧
      (∀ entry ∈ membersByLine dialect typeName kind body,
        entry.2.StartsOn dialect kind.isInterfaceLike (lines body) entry.1 ∧
          ∃ row start, (lines body)[entry.1]? = some row ∧
            dialect.IsMarkerBlock (lines body) start entry.1 ∧
            entry.2.markers =
              (((lines body).take entry.1).drop start).flatMap dialect.lineMarkers ++
                (dialect.peel (codeOf row)).1) ∧
      (membersByLine dialect typeName kind body).Pairwise fun first second =>
        first.1 < second.1 ∧
          ∀ upper lower, dialect.IsMarkerBlock (lines body) upper first.1 →
            dialect.IsMarkerBlock (lines body) lower second.1 →
            ∀ line, upper ≤ line → line ≤ first.1 → ¬(lower ≤ line ∧ line ≤ second.1) := by
  refine ⟨map_snd_membersByLine dialect typeName kind body, ?_, ?_⟩
  · intro entry hentry
    obtain ⟨above, below, hlines, hlength, hstarts, row, hrow, hmarkers⟩ :=
      of_mem_membersByLine hentry
    refine ⟨hstarts, row, above.length - blockLength dialect above, hrow, ?_, ?_⟩
    · rw [hlines, ← hlength]
      exact isMarkerBlock_above dialect above below
    · rw [hmarkers, hlines, ← hlength, memberMarkersAbove_eq_flatMap dialect above below]
  · apply (pairwise_membersByLine dialect typeName kind body).imp_of_mem
    intro first second hfirst hsecond hlt
    refine ⟨hlt, ?_⟩
    rintro upper lower - hblock line - hline ⟨hlower, -⟩
    obtain ⟨-, -, -, -, hstarts, -⟩ := of_mem_membersByLine hfirst
    obtain ⟨row, hrow, hends⟩ := hstarts.staysInBlock_eq_false
    have hstays := hblock.stays first.1 row (hlower.trans hline) hlt hrow
    rw [hends] at hstays
    cases hstays

-- A comment does not end a block, and a header ends the block of the next one.
example :
    (membersByLine .csharp "Cart".toList .classType
      ("[Key]\n// note\n[Range(1, 9)]\npublic int Size;\n\n[Tag] public int Depth;\n").toList).map
        (fun entry => (entry.1, entry.2.markers.map Marker.name)) =
      [(3, ["Key".toList, "Range".toList]), (5, ["Tag".toList])] := by
  decide +kernel

end SourceAtlas
