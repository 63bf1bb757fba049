import SourceAtlas.Proofs.Balanced

/-!
# Cutting a text and closing a bracket

What the two bracket scanners say about one text. The segments that the splitter cuts, with the separator
between them, are the text again, and none of them comes apart any further, with the blanks around it or
without. The texts that the splitter accepts are passed over by the search for a closing bracket, and that
search looks at nothing behind the bracket that it finds.
-/

namespace SourceAtlas

open List Option

variable {separator text : Text}

/-! ## Segments do not come apart -/

theorem Segments.of_glue_eq_nil {first : Text} {others : List Text} {back : Segments}
    (h : (glue first others back).2 = []) : others = [] ∧ back.2 = [] := by
  cases others with
  | nil => exact ⟨rfl, h⟩
  | cons second others => cases h

/-- Taking away the blanks around a segment takes no bracket, quote or separator with them. -/
theorem segmentsFrom_trim (h : segmentsFrom separator [] none text = some (text, [])) :
    segmentsFrom separator [] none (trim text) = some (trim text, []) := by
  obtain ⟨lead, tail, htext, hlead, htail⟩ := exists_blanks_append_trim text
  obtain ⟨front, -, -, hfront⟩ := (Balanced.of_blank hlead).exists_segments separator
  obtain ⟨⟨first, others⟩, hcore, hjoin, hmore⟩ :=
    (balanced_trim (closes_of_segmentsFrom h)).exists_segments separator
  obtain ⟨back, hback, -⟩ := (Balanced.of_blank htail).exists_segments separator
  rw [htext, append_assoc, hfront, hmore, hback] at h
  have hwhole := congrArg Prod.snd (some.inj h)
  obtain ⟨rfl, -⟩ := Segments.of_glue_eq_nil (Segments.of_glue_eq_nil hwhole).2
  obtain rfl : first = trim text := hjoin
  exact hcore

/-- A blank text is one segment where it has no separator. -/
theorem segmentsFrom_blank_iff (hblank : ∀ c ∈ text, isBlank c = true) :
    segmentsFrom separator [] none text = some (text, []) ↔ ∀ c ∈ text, [c] ≠ separator := by
  constructor
  · rintro h c hc rfl
    obtain ⟨front, rest, rfl⟩ := append_of_mem hc
    have hinert := isInert_of_isBlank (hblank c hc)
    obtain ⟨cut, -, -, hcut⟩ := (Balanced.of_blank fun d hd =>
      hblank d (mem_append_left _ hd)).exists_segments [c]
    rw [hcut, segmentsFrom_cut hinert] at h
    obtain ⟨glued, hglued, hwhole⟩ := map_eq_some_iff.mp h
    obtain ⟨behind, -, rfl⟩ := map_eq_some_iff.mp hglued
    cases (Segments.of_glue_eq_nil (congrArg Prod.snd hwhole)).2
  · intro h
    have hpass : segmentsFrom separator [] none (text ++ []) =
        (segmentsFrom separator [] none []).map (Segments.prepend text) :=
      segmentsFrom_append_inert (fun c hc => ⟨isInert_of_isBlank (hblank c hc), Or.inl (h c hc)⟩) []
    simpa [segmentsFrom, Segments.prepend] using hpass

theorem splitTopLevel_of_whole (h : segmentsFrom separator [] none text = some (text, []))
    (htrim : trim text = text) :
    splitTopLevel separator text = some (if text = [] then [] else [text]) := by
  have hblank : isBlankText text = true ↔ text = [] := by
    refine ⟨fun hblank => ?_, fun hnil => by rw [hnil]; rfl⟩
    rw [← htrim, trim, trimLeft, dropWhile_eq_nil_iff.mpr (all_eq_true.mp hblank)]
    rfl
  simp [splitTopLevel, h, Segments.parts, hblank, htrim]

/-- Splitting keeps all of a text but the separators and the blanks around the parts, and it is final. Its
result is empty for a blank text without separators only. -/
theorem splitTopLevel_restores {parts : List Text} (h : splitTopLevel separator text = some parts) :
    (∃ segments, segments ≠ [] ∧ joinWith separator segments = text ∧
      (parts = segments.map trim ∨ parts = [])) ∧
    (parts = [] ↔ isBlankText text = true ∧ ∀ c ∈ text, [c] ≠ separator) ∧
    ∀ part ∈ parts, splitTopLevel separator part = some (if part = [] then [] else [part]) := by
  obtain ⟨segments, hsegments, rfl⟩ := map_eq_some_iff.mp h
  have hcloses := closes_of_segmentsFrom hsegments
  obtain ⟨first, others, hfound, hfirst, hothers⟩ := hcloses.segments_whole separator
  obtain rfl := some.inj (hsegments.symm.trans hfound)
  obtain ⟨found, hfound', hjoin, -⟩ := hcloses.exists_segments separator
  obtain rfl := some.inj (hsegments.symm.trans hfound')
  have hempty : Segments.parts (first, others) = [] ↔ others = [] ∧ isBlankText first = true := by
    simp [Segments.parts]
  refine ⟨⟨first :: others, cons_ne_nil _ _, hjoin, ?_⟩, ?_, fun part hpart => ?_⟩
  · unfold Segments.parts
    split
    · exact Or.inr rfl
    · exact Or.inl rfl
  · rw [hempty]
    constructor
    · rintro ⟨rfl, hblank⟩
      obtain rfl : first = text := hjoin
      exact ⟨hblank, (segmentsFrom_blank_iff (all_eq_true.mp hblank)).mp hfirst⟩
    · rintro ⟨hblank, hnone⟩
      have hwhole := (segmentsFrom_blank_iff (all_eq_true.mp hblank)).mpr hnone
      obtain ⟨rfl, rfl⟩ := Prod.mk.inj (some.inj (hsegments.symm.trans hwhole))
      exact ⟨rfl, hblank⟩
  · unfold Segments.parts at hpart
    split at hpart
    · cases hpart
    · obtain ⟨segment, hsegment, rfl⟩ := mem_map.mp hpart
      refine splitTopLevel_of_whole (segmentsFrom_trim ?_) (trim_trim segment)
      rcases mem_cons.mp hsegment with rfl | hother
      · exact hfirst
      · exact hothers segment hother

theorem splitTopLevel_restores_call :
    splitTopLevel [','] " f(a, [b]) ,\x22x\\\x22,y\x22 > 0,".toList =
        some ["f(a, [b])".toList, "\x22x\\\x22,y\x22 > 0".toList, []] ∧
      splitTopLevel [','] "\x22x\\\x22,y\x22 > 0".toList = some ["\x22x\\\x22,y\x22 > 0".toList] := by
  have h : splitTopLevel [','] " f(a, [b]) ,\x22x\\\x22,y\x22 > 0,".toList =
      some ["f(a, [b])".toList, "\x22x\\\x22,y\x22 > 0".toList, []] := by decide +kernel
  exact ⟨h, (splitTopLevel_restores h).2.2 _ (by simp)⟩

/-! ## The bracket around a text -/

/-- The bracket behind a text that can be split closes the one in front of it, and a closing bracket is
found by the text up to it alone. -/
theorem findClosing_around_and_local :
    (∀ separator text : Text, (splitTopLevel separator text).isSome = true →
      ∀ pair ∈ [('(', ')'), ('[', ']'), ('{', '}')], ∀ rest,
        findClosing (pair.1 :: (text ++ pair.2 :: rest)) 0 pair.1 pair.2 = some (text.length + 1)) ∧
    ∀ (text : Text) (start close : Nat) (opener closer : Char),
      findClosing text start opener closer = some close →
        findClosing (text.take (close + 1)) start opener closer = some close ∧
        ∀ rest, findClosing (text.take (close + 1) ++ rest) start opener closer = some close := by
  constructor
  · intro separator text hsplit pair hpair rest
    obtain ⟨segments, hsegments⟩ := isSome_iff_exists.mp (isSome_map.symm.trans hsplit)
    have hbrackets : closerOf? pair.1 = some pair.2 ∧ pair.2 ≠ '>' := by
      simp only [mem_cons, not_mem_nil, or_false] at hpair
      rcases hpair with rfl | rfl | rfl <;> decide
    have hclose := Balanced.closingFrom_enclosed hbrackets.1 hbrackets.2
      (closes_of_segmentsFrom hsegments) 0 rest
    rwa [Nat.zero_add] at hclose
  · intro text start close opener closer h
    obtain ⟨-, -, -, -, -, hmore⟩ := findClosing_eq_some h
    have halone := hmore []
    rw [append_nil] at halone
    exact ⟨halone, hmore⟩

theorem findClosing_around_call :
    findClosing ('[' :: ("f(a, ']') > [b]".toList ++ ']' :: "]".toList)) 0 '[' ']' = some 16 ∧
      findClosing ("g(x)y)".toList.take 4 ++ "z)".toList) 1 '(' ')' = some 3 := by
  have hsplit : (splitTopLevel [','] "f(a, ']') > [b]".toList).isSome = true := by decide +kernel
  have hclose : findClosing "g(x)y)".toList 1 '(' ')' = some 3 := by decide +kernel
  exact ⟨findClosing_around_and_local.1 _ _ hsplit ('[', ']') (by simp) _,
    (findClosing_around_and_local.2 _ _ _ _ _ hclose).2 _⟩

end SourceAtlas
