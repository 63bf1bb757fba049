import SourceAtlas.Proofs.Balanced
import SourceAtlas.Proofs.Text.Lines

/-!
# Where characters come from

Reading cuts texts into pieces and puts pieces together. A piece has only characters of the text it
was cut from. What is put together has besides them a few characters that are always the same, and
no line break is among those.
-/

namespace SourceAtlas

open List

variable {separator needle row : Text} {parts : List Text}

variable {source middle text part rest : Text} {c : Char}

/-! ## Pieces of a text -/

theorem dropEndWhile_subset (drop : Char → Bool) (text : Text) : dropEndWhile drop text ⊆ text := by
  obtain ⟨tail, htext, -⟩ := exists_append_dropEndWhile drop text
  exact IsPrefix.subset ⟨tail, htext.symm⟩

theorem trimLeft_subset (text : Text) : trimLeft text ⊆ text :=
  (trimLeft_suffix text).subset

theorem trimRight_subset (text : Text) : trimRight text ⊆ text :=
  dropEndWhile_subset isBlank text

theorem trim_subset (text : Text) : trim text ⊆ text :=
  Subset.trans (trimRight_subset _) (trimLeft_subset text)

theorem subset_of_trimLeft_eq_cons (h : trimLeft text = c :: rest) : rest ⊆ text :=
  (suffix_of_trimLeft_eq_cons h).subset

theorem dropHead?_subset {head : Text} (h : dropHead? head text = some rest) : rest ⊆ text := by
  obtain rfl := dropHead?_eq_some_iff.mp h
  exact subset_append_right head rest

theorem afterLast_subset (separator : Char) (text : Text) : afterLast separator text ⊆ text := by
  intro c hc
  have hmem := takeWhile_subset _ (mem_reverse.mp hc)
  exact mem_reverse.mp hmem

theorem notMem_afterLast (separator : Char) (text : Text) : separator ∉ afterLast separator text := by
  intro hmem
  have hkept := mem_takeWhile_imp (mem_reverse.mp hmem)
  simp at hkept

theorem dropEnd_subset (count : Nat) (text : Text) : dropEnd count text ⊆ text :=
  take_subset _ text

theorem subset_of_mem_words (h : part ∈ words text) : part ⊆ text := by
  obtain ⟨before, after, rfl, -⟩ := exists_append_of_mem_words h
  exact Subset.trans (subset_append_right before part) (subset_append_left _ after)

theorem subset_of_mem_splitOn {separator : Char} (h : part ∈ splitOn separator text) :
    part ⊆ text := by
  induction text generalizing part with
  | nil =>
    obtain rfl := mem_singleton.mp h
    exact Subset.refl []
  | cons c text ih =>
    rw [splitOn] at h
    split at h
    · obtain rfl | hlater := mem_cons.mp h
      · exact nil_subset _
      · exact subset_cons_of_subset c (ih hlater)
    · cases hsplit : splitOn separator text with
      | nil =>
        rw [hsplit] at h
        obtain rfl := mem_singleton.mp h
        exact cons_subset_cons c (nil_subset text)
      | cons first others =>
        rw [hsplit] at h
        obtain rfl | hlater := mem_cons.mp h
        · exact cons_subset_cons c (ih (hsplit ▸ mem_cons_self))
        · apply subset_cons_of_subset c
          exact ih (hsplit ▸ mem_cons_of_mem first hlater)

theorem subset_joinWith_of_mem (h : part ∈ parts) : part ⊆ joinWith separator parts := by
  induction parts with
  | nil => cases h
  | cons first others ih =>
    cases others with
    | nil =>
      obtain rfl := mem_singleton.mp h
      exact Subset.refl part
    | cons second others =>
      rw [joinWith, append_assoc]
      obtain rfl | hlater := mem_cons.mp h
      · exact subset_append_left part _
      · apply subset_append_of_subset_right
        exact subset_append_of_subset_right _ (ih hlater)
      · intro hnil
        cases hnil

theorem subset_of_indexFrom? {index offset : Nat} (h : indexFrom? needle index text = some offset) :
    needle ⊆ text := by
  induction text generalizing index with
  | nil =>
    rw [indexFrom?] at h
    split at h
    · next hempty => simp [List.isEmpty_iff.mp hempty]
    · cases h
  | cons c rest ih =>
    rw [indexFrom?] at h
    split at h
    · next hstarts => exact (startsWith_iff.mp hstarts).subset
    · exact subset_cons_of_subset c (ih h)

theorem subset_of_occursIn (h : occursIn needle text = true) : needle ⊆ text := by
  obtain ⟨offset, hoffset⟩ := Option.isSome_iff_exists.mp h
  exact subset_of_indexFrom? hoffset

theorem subset_of_mem_splitTopLevel (h : splitTopLevel separator text = some parts)
    (hpart : part ∈ parts) : part ⊆ text := by
  obtain ⟨segments, hsegments, rfl⟩ := Option.map_eq_some_iff.mp h
  obtain ⟨found, hfound, hjoin, -⟩ := (closes_of_segmentsFrom hsegments).exists_segments separator
  obtain rfl := Option.some.inj (hsegments.symm.trans hfound)
  unfold Segments.parts at hpart
  split at hpart
  · cases hpart
  · obtain ⟨segment, hsegment, rfl⟩ := mem_map.mp hpart
    rw [← hjoin]
    exact Subset.trans (trim_subset segment) (subset_joinWith_of_mem hsegment)

theorem of_mem_linesFrom {current : Text} (hcurrent : ∀ c ∈ current, isLineBreak c = false)
    (h : row ∈ linesFrom current text) :
    (∀ c ∈ row, isLineBreak c = false) ∧ row ⊆ current ++ text := by
  have hreverse : ∀ {current rest : Text}, (∀ c ∈ current, isLineBreak c = false) →
      (∀ c ∈ current.reverse, isLineBreak c = false) ∧ current.reverse ⊆ current ++ rest := by
    intro current rest hcurrent
    refine ⟨fun c hc => hcurrent c (mem_reverse.mp hc), fun c hc => ?_⟩
    exact mem_append_left rest (mem_reverse.mp hc)
  fun_induction linesFrom current text with
  | case1 => cases h
  | case2 current hne =>
    obtain rfl := mem_singleton.mp h
    exact hreverse hcurrent
  | case3 current rest ih =>
    obtain rfl | hlater := mem_cons.mp h
    · exact hreverse hcurrent
    · obtain ⟨hbreaks, hsubset⟩ := ih (fun c hc => by cases hc) hlater
      refine ⟨hbreaks, fun c hc => mem_append_right current ?_⟩
      exact mem_cons_of_mem _ (mem_cons_of_mem _ (hsubset hc))
  | case4 current c rest _ hbreak ih =>
    obtain rfl | hlater := mem_cons.mp h
    · exact hreverse hcurrent
    · obtain ⟨hbreaks, hsubset⟩ := ih (fun c hc => by cases hc) hlater
      exact ⟨hbreaks, fun d hd => mem_append_right current (mem_cons_of_mem c (hsubset hd))⟩
  | case5 current c rest _ hbreak ih =>
    have hcons : ∀ d ∈ c :: current, isLineBreak d = false := by
      intro d hd
      obtain rfl | hd := mem_cons.mp hd
      · simpa using hbreak
      · exact hcurrent d hd
    obtain ⟨hbreaks, hsubset⟩ := ih hcons h
    refine ⟨hbreaks, fun d hd => ?_⟩
    have hmem := hsubset hd
    simp only [mem_append, mem_cons] at hmem ⊢
    tauto

theorem subset_of_mem_lines (h : row ∈ lines text) : row ⊆ text :=
  (of_mem_linesFrom (fun c hc => by cases hc) h).2

theorem isLineBreak_of_mem_lines (h : row ∈ lines text) : ∀ c ∈ row, isLineBreak c = false :=
  (of_mem_linesFrom (fun c hc => by cases hc) h).1

theorem replaceFrom_subset (needle replacement : Text) (skip : Nat) (text : Text) :
    replaceFrom needle replacement skip text ⊆ text ++ replacement := by
  fun_induction replaceFrom needle replacement skip text with
  | case1 => exact nil_subset _
  | case2 skip c rest _ ih => exact subset_cons_of_subset c ih
  | case3 skip c rest _ _ ih =>
    apply append_subset.mpr
    exact ⟨subset_append_right _ replacement, subset_cons_of_subset c ih⟩
  | case4 skip c rest _ _ ih => exact cons_subset_cons c ih

/-! ## Drawing from a source -/

def joints : Text :=
  " :;?!/=-> unknown var const enum".toList

/-- Whether every character of a text comes from the source or is one that reading puts in. -/
def DrawnFrom (source text : Text) : Prop :=
  ∀ c ∈ text, c ∈ source ∨ c ∈ joints

theorem DrawnFrom.of_subset (h : text ⊆ source) : DrawnFrom source text :=
  fun _ hc => Or.inl (h hc)

theorem DrawnFrom.trans (hmiddle : DrawnFrom source middle) (h : DrawnFrom middle text) :
    DrawnFrom source text := by
  intro c hc
  obtain hc | hc := h c hc
  · exact hmiddle c hc
  · exact Or.inr hc

theorem DrawnFrom.subset (hmiddle : DrawnFrom source middle) (h : text ⊆ middle) :
    DrawnFrom source text :=
  fun c hc => hmiddle c (h hc)

theorem DrawnFrom.nil (source : Text) : DrawnFrom source [] :=
  fun _ hc => absurd hc not_mem_nil

theorem DrawnFrom.of_joints (h : text.all joints.contains = true) : DrawnFrom source text :=
  fun c hc => Or.inr (contains_iff_mem.mp (all_eq_true.mp h c hc))

theorem DrawnFrom.append (h : DrawnFrom source text) (hrest : DrawnFrom source rest) :
    DrawnFrom source (text ++ rest) := by
  intro c hc
  obtain hc | hc := mem_append.mp hc
  · exact h c hc
  · exact hrest c hc

theorem DrawnFrom.joinWith_space (h : ∀ part ∈ parts, DrawnFrom source part) :
    DrawnFrom source (joinWith [' '] parts) :=
  forall_mem_joinWith (DrawnFrom.of_joints rfl) h

theorem drawnFrom_solid_squeeze (text : Text) :
    DrawnFrom (text.filter fun c => !isBlank c) (squeeze text) := by
  apply DrawnFrom.joinWith_space
  intro word hword
  apply DrawnFrom.of_subset
  intro c hc
  apply mem_filter.mpr
  exact ⟨subset_of_mem_words hword hc, by rw [(of_mem_words hword).2 c hc]; rfl⟩

theorem drawnFrom_squeeze (text : Text) : DrawnFrom text (squeeze text) :=
  .trans (.of_subset filter_sublist.subset) (drawnFrom_solid_squeeze text)

/-- A character that is not in the source gets into a text only if reading puts it in. -/
theorem DrawnFrom.notMem (h : DrawnFrom source text) (hsource : c ∉ source) (hjoints : c ∉ joints) :
    c ∉ text :=
  fun hc => (h c hc).elim hsource hjoints

/-! ## Text without line feeds -/

def unbroken (text : Text) : Text :=
  text.filter fun c => c != '\n'

theorem unbroken_subset (text : Text) : unbroken text ⊆ text :=
  filter_sublist.subset

theorem notMem_unbroken (text : Text) : '\n' ∉ unbroken text := by
  intro hmem
  have hne := (mem_filter.mp hmem).2
  exact absurd rfl (bne_iff_ne.mp hne)

theorem subset_unbroken (h : part ⊆ text) (hbreak : '\n' ∉ part) : part ⊆ unbroken text := by
  intro c hc
  apply mem_filter.mpr
  exact ⟨h hc, bne_iff_ne.mpr fun heq => hbreak (heq ▸ hc)⟩

theorem subset_unbroken_of_solid (h : part ⊆ text) (hsolid : ∀ c ∈ part, isBlank c = false) :
    part ⊆ unbroken text := by
  apply subset_unbroken h
  intro hmem
  exact absurd (hsolid _ hmem) (by decide)

theorem subset_unbroken_of_mem_lines (h : row ∈ lines part) (hpart : part ⊆ text) :
    row ⊆ unbroken text := by
  apply subset_unbroken (Subset.trans (subset_of_mem_lines h) hpart)
  intro hmem
  exact absurd (isLineBreak_of_mem_lines h _ hmem) (by decide)

theorem drawnFrom_unbroken_squeeze (h : part ⊆ text) : DrawnFrom (unbroken text) (squeeze part) := by
  refine DrawnFrom.trans (.of_subset ?_) (drawnFrom_solid_squeeze part)
  apply subset_unbroken_of_solid (Subset.trans filter_sublist.subset h)
  intro c hc
  simpa using (mem_filter.mp hc).2

end SourceAtlas
