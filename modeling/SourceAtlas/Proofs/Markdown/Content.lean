import SourceAtlas.Proofs.Markdown.NormalForm

/-!
# The linter loses nothing

The lines that are not blank stay, in their order. A closed code block stays as a whole, with its
blank lines, between the same delimiters and at the same place among the lines around it.
-/

namespace SourceAtlas.Markdown

open List

variable {inCode : Bool} {line opening closing markdown : Text}
  {done lines front body back : List Text}

/-! ## Lines that are not blank -/

def writtenLines (lines : List Text) : List Text :=
  lines.filter fun line => !isBlankText line

theorem isBlankText_eq_isEmpty_trimRight (line : Text) :
    isBlankText line = (trimRight line).isEmpty := by
  rw [Bool.eq_iff_iff, isBlankText, all_eq_true, List.isEmpty_iff, trimRight, dropEndWhile,
    reverse_eq_nil_iff, dropWhile_eq_nil_iff]
  simp only [mem_reverse]

theorem filled_map_trimRight (lines : List Text) :
    filled (lines.map trimRight) = (writtenLines lines).map trimRight := by
  unfold filled writtenLines
  simp only [filter_map, Function.comp_def, isBlankText_eq_isEmpty_trimRight]

theorem trimRight_of_mem_map (h : line ∈ lines.map trimRight) : trimRight line = line := by
  obtain ⟨raw, -, rfl⟩ := mem_map.mp h
  exact dropEndWhile_dropEndWhile isBlank raw

theorem writtenLines_of_tight (h : ∀ line ∈ lines, trimRight line = line) :
    writtenLines lines = filled lines := by
  apply filter_congr
  intro line hline
  rw [isBlankText_eq_isEmpty_trimRight, h line hline]

theorem filled_append (front back : List Text) :
    filled (front ++ back) = filled front ++ filled back := filter_append ..

theorem filled_reverse (lines : List Text) : filled lines.reverse = (filled lines).reverse :=
  filter_reverse

theorem filled_dropWhile (lines : List Text) :
    filled (lines.dropWhile (·.isEmpty)) = filled lines := by
  induction lines with
  | nil => rfl
  | cons line lines ih => cases line <;> simp [filled_cons_nil, ih]

theorem filled_lintedLines (markdown : Text) :
    filled (lintedLines markdown) =
      filled ((splitOn '\n' (unifyBreaks markdown)).map trimRight) := by
  rw [lintedLines, filled_reverse, filled_dropWhile, filled_layOut, reverse_append,
    reverse_reverse]
  rfl

theorem splitOn_lint (hne : lintedLines markdown ≠ []) :
    splitOn '\n' (lint markdown) = lintedLines markdown ++ [[]] := by
  rw [lint_eq]
  exact splitOn_joinWith_feed hne fun line hline =>
    ((isDocument_lintedLines markdown).tight line hline).noFeed

theorem filled_splitOn_lint (markdown : Text) :
    filled (splitOn '\n' (lint markdown)) = filled (lintedLines markdown) := by
  by_cases hne : lintedLines markdown = []
  · rw [lint_eq, hne]
    rfl
  · rw [splitOn_lint hne, filled_append]
    exact append_nil _

theorem trimRight_of_mem_splitOn_lint (h : line ∈ splitOn '\n' (lint markdown)) :
    trimRight line = line := by
  have htight : ∀ line ∈ lintedLines markdown ++ [[]], trimRight line = line := by
    rw [forall_mem_append, forall_mem_singleton]
    exact ⟨fun line hline => ((isDocument_lintedLines markdown).tight line hline).trimmed, rfl⟩
  by_cases hne : lintedLines markdown = []
  · rw [lint_eq, hne] at h
    have hnil : line = [] := by simpa [joinWith, splitOn] using h
    rw [hnil]
    rfl
  · rw [splitOn_lint hne] at h
    exact htight line h

/-! ## Code blocks -/

/-- A closed code block with the lines around it. -/
structure IsCodeBlock (lines front : List Text) (opening : Text) (body : List Text)
    (closing : Text) (back : List Text) : Prop where
  eq_append : lines = front ++ opening :: (body ++ closing :: back)
  outside : codeAfter false front = false
  opens : togglesCode false opening = true
  inside : ∀ line ∈ body, togglesCode true line = false
  closes : togglesCode true closing = true

theorem codeAfter_of_inside (h : ∀ line ∈ body, togglesCode true line = false) :
    codeAfter true body = true := by
  induction body with
  | nil => rfl
  | cons line body ih =>
    rw [forall_mem_cons] at h
    rw [codeAfter_cons, h.1]
    exact ih h.2

theorem addition_of_togglesCode (h : togglesCode inCode line = true) (done : List Text) :
    addition inCode done line = [line] := by
  simp [addition, h]

theorem layOut_of_inside (h : ∀ line ∈ body, togglesCode true line = false)
    (htight : ∀ line ∈ body, trimRight line = line) :
    layOut true done body = body.reverse ++ done := by
  induction body generalizing done with
  | nil => rfl
  | cons line body ih =>
    rw [forall_mem_cons] at h htight
    have hadd : addition true done line = [line] := by simp [addition]
    rw [layOut_cons, htight.1, h.1, hadd]
    simp [ih h.2 htight.2]

theorem layOut_map_trimRight (inCode : Bool) (done lines : List Text) :
    layOut inCode done (lines.map trimRight) = layOut inCode done lines := by
  induction lines generalizing inCode done with
  | nil => rfl
  | cons raw rest ih =>
    have htwice : trimRight (trimRight raw) = trimRight raw :=
      dropEndWhile_dropEndWhile isBlank raw
    rw [map_cons, layOut_cons, layOut_cons, htwice, ih]

namespace IsCodeBlock

theorem exists_layOut (h : IsCodeBlock lines front opening body closing back)
    (htight : ∀ line ∈ lines, trimRight line = line) :
    ∃ more, filled more = (filled back).reverse ∧
      layOut false [] lines =
        more ++ closing :: (body.reverse ++ opening :: layOut false [] front) := by
  obtain ⟨rfl, houtside, hopens, hinside, hcloses⟩ := h
  simp only [forall_mem_append, forall_mem_cons] at htight
  obtain ⟨hfront, hopening, hbody, hclosing, hback⟩ := htight
  have hblock : layOut false [] (front ++ opening :: (body ++ closing :: back)) =
      layOut false (closing :: (body.reverse ++ opening :: layOut false [] front)) back := by
    rw [layOut_append, map_trimRight hfront, houtside, layOut_cons, hopening, hopens,
      addition_of_togglesCode hopens, Bool.false_xor, layOut_append, map_trimRight hbody,
      codeAfter_of_inside hinside, layOut_of_inside hinside hbody, layOut_cons, hclosing, hcloses,
      addition_of_togglesCode hcloses]
    rfl
  obtain ⟨more, hmore⟩ := exists_layOut_eq_append false
    (closing :: (body.reverse ++ opening :: layOut false [] front)) back
  refine ⟨more, ?_, hblock.trans hmore⟩
  have hfilled := congrArg filled hmore
  rw [filled_layOut, map_trimRight hback, filled_append] at hfilled
  exact (append_cancel_right hfilled).symm

/-- A line that ends a code block is not dropped, and neither is anything in front of it. -/
theorem lintedLines_eq {more rest : List Text} (hcloses : togglesCode inCode closing = true)
    (h : layOut false [] (splitOn '\n' (unifyBreaks markdown)) = more ++ closing :: rest) :
    lintedLines markdown = rest.reverse ++ closing :: (more.dropWhile (·.isEmpty)).reverse := by
  have hclosing : closing.isEmpty = false := by
    cases closing with
    | nil => simp at hcloses
    | cons c closing => rfl
  rw [lintedLines, h, dropWhile_append]
  split
  · next hempty =>
    rw [List.isEmpty_iff.mp hempty]
    simp [hclosing]
  · simp

theorem lint (h : IsCodeBlock ((splitOn '\n' (unifyBreaks markdown)).map trimRight)
    front opening body closing back) :
    ∃ before after, IsCodeBlock (splitOn '\n' (Markdown.lint markdown)) before opening body closing
      after ∧ filled before = filled front ∧ filled after = filled back := by
  have hfront : front.map trimRight = front := by
    apply map_trimRight
    intro line hline
    exact trimRight_of_mem_map (h.eq_append ▸ mem_append_left _ hline)
  obtain ⟨more, hmore, hlaid⟩ := h.exists_layOut fun line => trimRight_of_mem_map
  rw [layOut_map_trimRight] at hlaid
  have hlinted := lintedLines_eq h.closes hlaid
  have hne : lintedLines markdown ≠ [] := by simp [hlinted]
  refine ⟨(layOut false [] front).reverse, (more.dropWhile (·.isEmpty)).reverse ++ [[]], ?_, ?_, ?_⟩
  · refine ⟨?_, ?_, h.opens, h.inside, h.closes⟩
    · rw [splitOn_lint hne, hlinted]
      simp
    · have hcode := (IsLayout.nil.layOut front).code
      rw [hfront, h.outside] at hcode
      exact hcode
  · rw [filled_reverse, filled_layOut, hfront, reverse_append, reverse_reverse]
    rfl
  · rw [filled_append, filled_reverse, filled_dropWhile, hmore, reverse_reverse]
    exact append_nil _

theorem subset (h : IsCodeBlock lines front opening body closing back) :
    front ⊆ lines ∧ back ⊆ lines := by
  rw [h.eq_append]
  constructor
  · exact subset_append_left ..
  · intro line hline
    simp [hline]

end IsCodeBlock

/-- The linter loses nothing. The lines that are not blank are those of the source without the blanks
at their ends, in order. Every closed code block of the source stands in the result between the same
delimiters, line for line with its blank lines, and has the same lines in front of it and behind it
up to blank ones. -/
theorem lint_keeps_content (markdown : Text) : let source := splitOn '\n' (unifyBreaks markdown)
    let result := splitOn '\n' (lint markdown)
    writtenLines result = (writtenLines source).map trimRight ∧
      ∀ front opening body closing back,
        IsCodeBlock (source.map trimRight) front opening body closing back →
          ∃ before after, IsCodeBlock result before opening body closing after ∧
            writtenLines before = writtenLines front ∧
            writtenLines after = writtenLines back := by
  intro source result
  have hsource : ∀ line ∈ source.map trimRight, trimRight line = line :=
    fun line => trimRight_of_mem_map
  have hresult : ∀ line ∈ result, trimRight line = line :=
    fun line hline => trimRight_of_mem_splitOn_lint hline
  constructor
  · rw [writtenLines_of_tight hresult, ← filled_map_trimRight]
    exact (filled_splitOn_lint markdown).trans (filled_lintedLines markdown)
  · intro front opening body closing back hblock
    obtain ⟨before, after, hkept, hbefore, hafter⟩ := hblock.lint
    refine ⟨before, after, hkept, ?_, ?_⟩
    · rw [writtenLines_of_tight fun line hline => hresult line (hkept.subset.1 hline),
        writtenLines_of_tight fun line hline => hsource line (hblock.subset.1 hline), hbefore]
    · rw [writtenLines_of_tight fun line hline => hresult line (hkept.subset.2 hline),
        writtenLines_of_tight fun line hline => hsource line (hblock.subset.2 hline), hafter]

/-- Two blank lines in front of a block become one, those inside it stay. -/
theorem lint_keeps_content_pre : let markdown := "Text\n\n\n<pre>\n\n\ncode \n</pre>".toList
    let body := [[], [], "code".toList]
    IsCodeBlock ((splitOn '\n' (unifyBreaks markdown)).map trimRight) ["Text".toList, [], []]
        "<pre>".toList body "</pre>".toList [] ∧
      ∃ before after, IsCodeBlock (splitOn '\n' (lint markdown)) before "<pre>".toList body
          "</pre>".toList after ∧
        writtenLines before = ["Text".toList] ∧ writtenLines after = [] := by
  intro markdown body
  have hblock : IsCodeBlock ((splitOn '\n' (unifyBreaks markdown)).map trimRight)
      ["Text".toList, [], []] "<pre>".toList body "</pre>".toList [] :=
    ⟨by decide +kernel, by decide +kernel, by decide, forall_mem_cons.mpr ⟨rfl, by decide⟩,
      by decide⟩
  obtain ⟨before, after, hkept, hbefore, hafter⟩ :=
    (lint_keeps_content markdown).2 _ _ _ _ _ hblock
  exact ⟨hblock, before, after, hkept, hbefore.trans (by decide +kernel), hafter⟩

end SourceAtlas.Markdown
