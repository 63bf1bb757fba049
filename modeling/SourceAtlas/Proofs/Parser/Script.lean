import SourceAtlas.Proofs.Member.Drawn
import SourceAtlas.Proofs.Parser.Script.Reading

/-!
# What is read of a script

A script is read line by line. Each line adds to what was read only texts that are drawn from it and
from the lines that continue it, and no member with a hidden name. So this holds of a whole script.
-/

namespace SourceAtlas.Script

open List Option

variable {keyword : String} {rest word base name : Text} {openParen : Nat}

variable {source line text : Text} {below : List Text} {markers : List Marker}

/-! ## Pieces of a line -/

theorem afterKeyword?_subset (h : afterKeyword? keyword text = some rest) : rest ⊆ text :=
  (dropWord?_suffix h).subset

theorem splitWord?_eq_some (h : splitWord? text = some (word, rest)) :
    word ⊆ text ∧ trim word = word ∧ rest ⊆ text := by
  unfold splitWord? at h
  dsimp only at h
  rw [ite_none_left_eq_some] at h
  obtain ⟨rfl, rfl⟩ := Prod.mk.inj (some.inj h.2)
  refine ⟨(List.takeWhile_prefix _).subset, ?_, (dropWhile_sublist _).subset⟩
  exact trim_of_solid fun c hc => isBlank_eq_false_of_isWord (mem_takeWhile_imp hc)

theorem bind_splitWord?_eq_some
    (h : (afterKeyword? keyword text).bind splitWord? = some (word, rest)) :
    word ⊆ text ∧ trim word = word ∧ rest ⊆ text := by
  obtain ⟨after, hafter, hword⟩ := bind_eq_some_iff.mp h
  obtain ⟨hsubset, htrim, hrest⟩ := splitWord?_eq_some hword
  have hline := afterKeyword?_subset hafter
  exact ⟨Subset.trans hsubset hline, htrim, Subset.trans hrest hline⟩

theorem dropComment_subset (line : Text) : dropComment line ⊆ line := by
  unfold dropComment
  dsimp only
  split
  · exact Subset.trans (trimRight_subset _) (List.takeWhile_prefix _).subset
  · exact trimRight_subset line

theorem quotedBase?_subset {quote : Char} (h : quotedBase? quote text = some base) :
    base ⊆ text := by
  unfold quotedBase? at h
  split at h
  · next c rest =>
    dsimp only at h
    split at h
    · obtain rfl := some.inj h
      exact Subset.trans (List.takeWhile_prefix _).subset (subset_cons_self c rest)
    · cases h
  · cases h

theorem stripQuotes_subset (text : Text) : stripQuotes text ⊆ text :=
  Subset.trans (dropEndWhile_subset _ _) (dropWhile_sublist _).subset

theorem extendsBase?_subset (h : extendsBase? line = some base) : base ⊆ line := by
  obtain ⟨after, hafter, h⟩ := bind_eq_some_iff.mp h
  refine Subset.trans ?_ (afterKeyword?_subset hafter)
  dsimp only at h
  split at h
  · obtain rfl := some.inj h
    exact (List.takeWhile_prefix _).subset
  · split at h
    · next quoted hquoted =>
      obtain rfl := some.inj h
      exact Subset.trans (stripQuotes_subset quoted) (quotedBase?_subset hquoted)
    · obtain ⟨quoted, hquoted, rfl⟩ := map_eq_some_iff.mp h
      exact Subset.trans (stripQuotes_subset quoted) (quotedBase?_subset hquoted)

theorem dropStatic_subset (line : Text) : dropStatic line ⊆ line :=
  getD_subset (Subset.refl line) fun _ hrest => afterKeyword?_subset hrest

theorem functionHeader?_eq_some (h : functionHeader? line = some (name, openParen)) :
    name ⊆ line ∧ trim name = name := by
  obtain ⟨after, hafter, h⟩ := bind_eq_some_iff.mp h
  obtain ⟨⟨word, rest⟩, hword, h⟩ := bind_eq_some_iff.mp h
  obtain ⟨hsubset, htrim, -⟩ := splitWord?_eq_some hword
  dsimp only at h
  split at h
  · obtain ⟨rfl, -⟩ := Prod.mk.inj (some.inj h)
    have hline := Subset.trans (afterKeyword?_subset hafter) (dropStatic_subset line)
    exact ⟨Subset.trans hsubset hline, htrim⟩
  · cases h

theorem resultType?_subset {after result : Text} (h : resultType? after = some result) :
    result ⊆ after := by
  obtain ⟨rest, hrest, h⟩ := bind_eq_some_iff.mp h
  refine Subset.trans ?_ (Subset.trans (dropHead?_subset hrest) (trimLeft_subset after))
  dsimp only at h
  split at h
  · split at h
    · obtain ⟨c, hc, rfl⟩ := map_eq_some_iff.mp h
      have hmem := takeWhile_subset _ (mem_of_getLast? hc)
      exact cons_subset.mpr ⟨hmem, nil_subset rest⟩
    · obtain rfl := some.inj h
      exact Subset.trans (trimRight_subset _)
        (Subset.trans (List.takeWhile_prefix _).subset (trimLeft_subset rest))
  · cases h

theorem variableParts?_eq_some {keyword declared : Text}
    (h : variableParts? line = some (keyword, name, declared)) :
    keyword ∈ ["var".toList, "const".toList] ∧ name ⊆ line ∧ trim name = name ∧
      DrawnFrom line declared := by
  obtain ⟨⟨found, after⟩, hfound, h⟩ := bind_eq_some_iff.mp h
  obtain ⟨⟨word, rest⟩, hword, h⟩ := bind_eq_some_iff.mp h
  obtain ⟨hname, htrim, hrest⟩ := splitWord?_eq_some hword
  have hkeyword : found ∈ ["var".toList, "const".toList] ∧ after ⊆ line := by
    obtain ⟨spelling, hspelling, hmap⟩ := exists_of_findSome?_eq_some hfound
    obtain ⟨tail, htail, heq⟩ := map_eq_some_iff.mp hmap
    obtain ⟨rfl, rfl⟩ := Prod.mk.inj heq
    exact ⟨mem_map_of_mem hspelling,
      Subset.trans (afterKeyword?_subset htail) (dropStatic_subset line)⟩
  dsimp only at h
  split at h
  · cases h
    exact ⟨hkeyword.1, Subset.trans hname hkeyword.2, htrim, drawnFrom_unknownType line⟩
  · cases h
    exact ⟨hkeyword.1, Subset.trans hname hkeyword.2, htrim, drawnFrom_unknownType line⟩
  · next type htype =>
    cases h
    have hafter := Subset.trans (subset_of_trimLeft_eq_cons htype) hrest
    have hline := Subset.trans hafter hkeyword.2
    refine ⟨hkeyword.1, Subset.trans hname hkeyword.2, htrim,
      DrawnFrom.typeOrUnknown (.of_subset ?_)⟩
    exact Subset.trans (trim_subset _)
      (Subset.trans (List.takeWhile_prefix _).subset hline)
  · cases h

/-! ## Members -/

theorem joinParameters_drawn (htext : DrawnFrom source text) (hbelow : ∀ row ∈ below, row ⊆ source)
    (openParen : Nat) : DrawnFrom source (joinParameters openParen text below).1 := by
  induction below generalizing text with
  | nil => exact htext
  | cons raw rest ih =>
    rw [joinParameters]
    split
    · exact htext
    · have hraw := Subset.trans (trim_subset raw) (hbelow raw mem_cons_self)
      have hspace : DrawnFrom source [' '] := .of_joints (by decide)
      exact ih (htext.append (hspace.append (.of_subset hraw)))
        fun row hrow => hbelow row (mem_cons_of_mem raw hrow)

theorem function_drawn (hname : name ⊆ source) (htrim : trim name = name) (hline : line ⊆ source)
    (hbelow : ∀ row ∈ below, row ⊆ source) (hmarkers : ∀ marker ∈ markers, marker.CutFrom source) :
    ∀ member ∈ (function line name openParen below markers).1, member.IsDrawnFrom source := by
  have hjoined := joinParameters_drawn (.of_subset hline) hbelow openParen
  rw [function_eq]
  generalize (joinParameters openParen line below).1 = joined at hjoined ⊢
  intro member hmember
  obtain ⟨close, -, rfl⟩ := map_eq_some_iff.mp hmember
  have hhead : DrawnFrom source (joined.take (close + 1)) := hjoined.subset (take_subset _ _)
  cases hresult : resultType? (joined.drop (close + 1)) with
  | none =>
    exact ⟨.of_subset hname, htrim, drawnFrom_unknownType source, hhead.append (.nil _), hmarkers⟩
  | some result =>
    have hdeclared : DrawnFrom source result :=
      hjoined.subset (Subset.trans (resultType?_subset hresult) (drop_subset _ _))
    have harrow : DrawnFrom source " -> ".toList := .of_joints (by decide)
    exact ⟨.of_subset hname, htrim, hdeclared, hhead.append (harrow.append hdeclared), hmarkers⟩

theorem plainMember?_drawn {member : Member} (hline : line ⊆ source)
    (hmarkers : ∀ marker ∈ markers, marker.CutFrom source)
    (h : plainMember? line markers = some member) : member.IsDrawnFrom source := by
  have hunknown := drawnFrom_unknownType source
  have hspace : DrawnFrom source [' '] := .of_joints (by decide)
  unfold plainMember? at h
  split at h
  · next name _ hsignal =>
    obtain rfl := some.inj h
    obtain ⟨hname, htrim, -⟩ := bind_splitWord?_eq_some hsignal
    have hsignature := Subset.trans (trimRight_subset _) (dropEndWhile_subset (· == ':') line)
    exact ⟨.of_subset (Subset.trans hname hline), htrim, hunknown,
      .of_subset (Subset.trans hsignature hline), hmarkers⟩
  · split at h
    · next keyword name declared hparts =>
      obtain rfl := some.inj h
      obtain ⟨hkeyword, hname, htrim, hdeclared⟩ := variableParts?_eq_some hparts
      have hnameDrawn : DrawnFrom source name := .of_subset (Subset.trans hname hline)
      have hkeywordDrawn : DrawnFrom source keyword := by
        have hchars : ["var".toList, "const".toList].all (·.all joints.contains) = true := by decide
        exact .of_joints (all_eq_true.mp hchars keyword hkeyword)
      have htype : DrawnFrom source declared := .trans (.of_subset hline) hdeclared
      have hhead : DrawnFrom source (keyword ++ ' ' :: name) :=
        hkeywordDrawn.append (hspace.append hnameDrawn)
      refine ⟨hnameDrawn, htrim, htype, ?_, hmarkers⟩
      dsimp only
      split
      · exact hhead
      · exact (hhead.append (.of_joints (by decide))).append htype
    · obtain ⟨⟨name, rest⟩, hname, rfl⟩ := map_eq_some_iff.mp h
      obtain ⟨hsubset, htrim, -⟩ := bind_splitWord?_eq_some hname
      have hnameDrawn : DrawnFrom source name := .of_subset (Subset.trans hsubset hline)
      exact ⟨hnameDrawn, htrim, hunknown, .append (.of_joints (by decide)) hnameDrawn, hmarkers⟩

/-! ## Lines -/

theorem codeOfLine_drawn {raw : Text} (h : codeOfLine raw = (markers, line)) (hraw : raw ⊆ source) :
    line ⊆ source ∧ ∀ marker ∈ markers, marker.CutFrom source := by
  have hcode := Subset.trans (dropComment_subset raw) hraw
  have hline := Subset.trans (Dialect.typescript.peel_suffix _).subset hcode
  have hmarkers := fun marker hmarker =>
    (Dialect.typescript.peel_cutFrom (dropComment raw) marker hmarker).mono hcode
  change (codeOfLine raw).2 ⊆ source at hline
  change ∀ marker ∈ (codeOfLine raw).1, marker.CutFrom source at hmarkers
  rw [h] at hline hmarkers
  exact ⟨hline, hmarkers⟩

/-- Whether all that was read is drawn from a source and no member has a hidden name. -/
structure Progress.IsDrawnFrom (source : Text) (progress : Progress) : Prop where
  baseTypes : ∀ base ∈ progress.baseTypes, base ⊆ source
  classMarkers : ∀ marker ∈ progress.classMarkers, marker.CutFrom source
  pending : ∀ marker ∈ progress.pending, marker.CutFrom source
  members : ∀ member ∈ progress.members, member.IsDrawnFrom source
  shown : ∀ member ∈ progress.members, isHidden member.name = false

variable {progress : Progress} {raw : Text}

theorem Progress.IsDrawnFrom.describe {className : Option Text} {baseTypes : List Text}
    (h : progress.IsDrawnFrom source) (hbases : ∀ base ∈ baseTypes, base ⊆ source)
    (hmarkers : ∀ marker ∈ progress.pending ++ markers, marker.CutFrom source) :
    (progress.describe className baseTypes markers).IsDrawnFrom source :=
  { h with
    baseTypes := hbases
    classMarkers := forall_mem_append.mpr ⟨h.classMarkers, hmarkers⟩
    pending := forall_mem_nil _ }

theorem Progress.IsDrawnFrom.add {found : Option Member} (h : progress.IsDrawnFrom source)
    (hfound : ∀ member ∈ found, member.IsDrawnFrom source) :
    (progress.add found).IsDrawnFrom source where
  baseTypes := h.baseTypes
  classMarkers := h.classMarkers
  pending := forall_mem_nil _
  members := by
    refine forall_mem_append.mpr ⟨h.members, fun member hmember => ?_⟩
    exact hfound member (mem_toList.mp (mem_of_mem_filter hmember))
  shown := by
    refine forall_mem_append.mpr ⟨h.shown, fun member hmember => ?_⟩
    simpa using (mem_filter.mp hmember).2

theorem readLine_drawn (h : progress.IsDrawnFrom source) (hraw : raw ⊆ source)
    (hbelow : ∀ row ∈ below, row ⊆ source) : (readLine progress raw below).1.IsDrawnFrom source := by
  -- the markers that are pending behind the line
  have hpending : ∀ {markers line}, codeOfLine raw = (markers, line) →
      ∀ marker ∈ progress.pending ++ markers, marker.CutFrom source :=
    fun hcode => forall_mem_append.mpr ⟨h.pending, (codeOfLine_drawn hcode hraw).2⟩
  refine readLine_elim progress raw ?passedOver ?markersOnly ?namesClass ?namesBase ?isFunction ?isPlain
  case passedOver => exact h
  case markersOnly => exact fun markers hcode => { h with pending := hpending hcode }
  case namesClass =>
    intro markers line name after hcode hname
    obtain ⟨-, -, hafter⟩ := bind_splitWord?_eq_some hname
    refine h.describe ?_ (hpending hcode)
    cases hbase : extendsBase? (trim after) with
    | none => exact h.baseTypes
    | some base =>
      have hline := Subset.trans hafter (codeOfLine_drawn hcode hraw).1
      exact forall_mem_singleton.mpr (Subset.trans (extendsBase?_subset hbase)
        (Subset.trans (trim_subset after) hline))
  case namesBase =>
    intro markers line base hcode hbase
    have hline := Subset.trans (extendsBase?_subset hbase) (codeOfLine_drawn hcode hraw).1
    exact h.describe (forall_mem_singleton.mpr hline) (hpending hcode)
  case isFunction =>
    intro markers line name openParen hcode hheader
    obtain ⟨hname, htrim⟩ := functionHeader?_eq_some hheader
    have hline := (codeOfLine_drawn hcode hraw).1
    exact h.add (function_drawn (Subset.trans hname hline) htrim hline hbelow (hpending hcode))
  case isPlain =>
    intro markers line hcode
    exact h.add fun member =>
      plainMember?_drawn (codeOfLine_drawn hcode hraw).1 (hpending hcode)

theorem readLines_drawn (h : progress.IsDrawnFrom source) (hbelow : ∀ row ∈ below, row ⊆ source) :
    (readLines progress below).IsDrawnFrom source := by
  refine readLines_preserves (fun next raw rest hrest hnext => ?_) h
  have hrows := fun row hrow => hbelow row (hrest.subset hrow)
  exact readLine_drawn hnext (hrows raw mem_cons_self)
    fun row hrow => hrows row (mem_cons_of_mem raw hrow)

end SourceAtlas.Script
