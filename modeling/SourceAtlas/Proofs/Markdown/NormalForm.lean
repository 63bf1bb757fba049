import SourceAtlas.Proofs.Markdown.Spacing

/-!
# The normal form of a document

A laid-out document ends with one line feed, has no blanks at the ends of its lines and does not
start with a blank line, and its lines are spaced. Every document of that form stays as it is when it
is laid out, so laying out twice is laying out once.
-/

namespace SourceAtlas.Markdown

open List

variable {line markdown text : Text} {lines done : List Text}

/-! ## Lines of a laid-out document -/

def lintedLines (markdown : Text) : List Text :=
  ((layOut false [] (splitOn '\n' (unifyBreaks markdown))).dropWhile (·.isEmpty)).reverse

theorem lint_eq (markdown : Text) :
    lint markdown = joinWith ['\n'] (lintedLines markdown) ++ ['\n'] := rfl

/-- A single line without blanks at its end. -/
structure IsTight (line : Text) : Prop where
  trimmed : trimRight line = line
  noFeed : '\n' ∉ line
  noReturn : '\r' ∉ line

theorem isTight_nil : IsTight [] where
  trimmed := rfl
  noFeed := not_mem_nil
  noReturn := not_mem_nil

theorem isTight_trimRight {raw : Text} (h : raw ∈ splitOn '\n' (unifyBreaks markdown)) :
    IsTight (trimRight raw) where
  trimmed := dropEndWhile_dropEndWhile isBlank raw
  noFeed := fun hmem => notMem_of_mem_splitOn h (trimRight_subset raw hmem)
  noReturn := fun hmem =>
    notMem_unifyBreaks markdown (subset_of_mem_splitOn h (trimRight_subset raw hmem))

theorem eq_nil_or_eq_of_mem_addition {inCode : Bool} {added : Text}
    (h : added ∈ addition inCode done line) : added = [] ∨ added = line := by
  unfold addition at h
  split at h
  · exact Or.inr (mem_singleton.mp h)
  · split at h
    · split at h
      · exact Or.inl (mem_singleton.mp h)
      · cases h
    · split at h
      · rw [mem_cons, mem_cons] at h
        obtain hnil | hline | hmore := h
        · exact Or.inl hnil
        · exact Or.inr hline
        · split at hmore
          · exact Or.inl (mem_singleton.mp hmore)
          · cases hmore
      · exact Or.inr (mem_singleton.mp h)

theorem forall_mem_layOut {p : Text → Prop} {inCode : Bool} (hnil : p [])
    (hdone : ∀ line ∈ done, p line) (hlines : ∀ raw ∈ lines, p (trimRight raw)) :
    ∀ line ∈ layOut inCode done lines, p line := by
  induction lines generalizing inCode done with
  | nil => exact hdone
  | cons raw rest ih =>
    rw [forall_mem_cons] at hlines
    rw [layOut_cons]
    apply ih _ hlines.2
    rw [forall_mem_append]
    refine ⟨?_, hdone⟩
    intro added hadded
    obtain rfl | rfl := eq_nil_or_eq_of_mem_addition hadded
    · exact hnil
    · exact hlines.1

/-- Lines that make a laid-out document. -/
structure IsDocument (lines : List Text) : Prop where
  tight : ∀ line ∈ lines, IsTight line
  spaced : IsSpaced lines
  first : lines.head? ≠ some []
  last : lines.getLast? ≠ some []

theorem isDocument_lintedLines (markdown : Text) : IsDocument (lintedLines markdown) := by
  have hlayout := IsLayout.nil.layOut (splitOn '\n' (unifyBreaks markdown))
  have htight : ∀ line ∈ layOut false [] (splitOn '\n' (unifyBreaks markdown)), IsTight line :=
    forall_mem_layOut isTight_nil (fun _ hmem => nomatch hmem) fun _ => isTight_trimRight
  unfold lintedLines
  generalize layOut false [] (splitOn '\n' (unifyBreaks markdown)) = done at hlayout htight ⊢
  have hsuffix : done.dropWhile (·.isEmpty) <:+ done := dropWhile_suffix _
  obtain ⟨back, hback⟩ := reverse_prefix.mpr hsuffix
  constructor
  · intro line hline
    exact htight line (hsuffix.subset (mem_reverse.mp hline))
  · exact IsSpaced.of_append (hback ▸ hlayout.spaced)
  · intro hfirst
    apply hlayout.first
    rw [← head?_reverse, ← hback, head?_append, hfirst]
    rfl
  · intro hlast
    rw [getLast?_reverse] at hlast
    have hkept := head?_dropWhile_not (·.isEmpty) done
    rw [hlast] at hkept
    cases hkept

/-! ## Laying out a laid-out document -/

theorem splitOn_joinWith_feed (hne : lines ≠ []) (h : ∀ line ∈ lines, '\n' ∉ line) :
    splitOn '\n' (joinWith ['\n'] lines ++ ['\n']) = lines ++ [[]] := by
  rw [splitOn_append_cons, splitOn_joinWith_of_notMem hne h]
  rfl

theorem notMem_joinWith_feed (h : ∀ line ∈ lines, '\r' ∉ line) :
    '\r' ∉ joinWith ['\n'] lines ++ ['\n'] := by
  have hlines : '\r' ∉ joinWith ['\n'] lines := notMem_joinWith (by decide) h
  simp [hlines]

theorem dropWhile_addition_nil (inCode : Bool) (done : List Text) :
    (addition inCode done [] ++ done).dropWhile (·.isEmpty) = done.dropWhile (·.isEmpty) := by
  cases inCode <;> cases hneeds : needsBlank done <;> simp [addition, hneeds]

theorem lint_of_isDocument (h : IsDocument lines) :
    lint (joinWith ['\n'] lines ++ ['\n']) = joinWith ['\n'] lines ++ ['\n'] := by
  by_cases hne : lines = []
  · subst hne
    rfl
  · have hlines : splitOn '\n' (unifyBreaks (joinWith ['\n'] lines ++ ['\n'])) = lines ++ [[]] := by
      rw [unifyBreaks_of_notMem (notMem_joinWith_feed fun line hline => (h.tight line hline).noReturn)]
      exact splitOn_joinWith_feed hne fun line hline => (h.tight line hline).noFeed
    have hlaid := layOut_of_isSpaced h.spaced h.first fun line hline => (h.tight line hline).trimmed
    have hlinted : lintedLines (joinWith ['\n'] lines ++ ['\n']) = lines := by
      unfold lintedLines
      have htrim : trimRight [] = [] := rfl
      rw [hlines, layOut_append, layOut_singleton, hlaid, htrim, dropWhile_addition_nil,
        dropWhile_settled h.last, reverse_reverse]
    rw [lint_eq, hlinted]

/-! ## The normal form -/

/-- The lines of a text, each of which ends with a line feed. -/
def documentLines (text : Text) : List Text :=
  (splitOn '\n' text).dropLast

/-- The normal form of a document. A document without lines is a single line feed. -/
structure IsNormal (text : Text) : Prop where
  feed : ['\n'] <:+ text
  once : ¬['\n', '\n'] <:+ text
  noReturn : '\r' ∉ text
  tight : ∀ line ∈ documentLines text, line.getLast?.any isBlank = false
  first : text ≠ ['\n'] → text.head? ≠ some '\n'
  spaced : IsSpaced (documentLines text)

theorem trimRight_eq_self_iff : trimRight line = line ↔ line.getLast?.any isBlank = false := by
  constructor
  · intro h
    rw [← h, getLast?_trimRight]
    cases hlast : (line.filter (!isBlank ·)).getLast? with
    | none => rfl
    | some c => simpa using (mem_filter.mp (mem_of_getLast? hlast)).2
  · intro h
    cases hlast : line.getLast? with
    | none =>
      rw [getLast?_eq_none_iff.mp hlast]
      rfl
    | some c =>
      rw [hlast] at h
      exact trimRight_of_getLast? hlast h

theorem documentLines_append_feed (body : Text) :
    documentLines (body ++ ['\n']) = splitOn '\n' body := by
  rw [documentLines, splitOn_append_cons]
  exact dropLast_concat

theorem isNormal_feed : IsNormal ['\n'] where
  feed := suffix_rfl
  once := fun hsuffix => absurd hsuffix.length_le (by decide)
  noReturn := by decide
  tight := by simp [documentLines, splitOn]
  first := fun hne => absurd rfl hne
  spaced := IsSpaced.nil.concat (by simp) (by simp) (by simp)

theorem IsDocument.isNormal (h : IsDocument lines) :
    IsNormal (joinWith ['\n'] lines ++ ['\n']) := by
  by_cases hne : lines = []
  · subst hne
    exact isNormal_feed
  · have hsplit : splitOn '\n' (joinWith ['\n'] lines) = lines :=
      splitOn_joinWith_of_notMem hne fun line hline => (h.tight line hline).noFeed
    have hlines : documentLines (joinWith ['\n'] lines ++ ['\n']) = lines :=
      (documentLines_append_feed _).trans hsplit
    refine ⟨suffix_append .., ?_, ?_, ?_, ?_, ?_⟩
    · -- a second line feed at the end would make the last line blank
      rintro ⟨front, hfront⟩
      have htwice : (front ++ ['\n']) ++ ['\n'] = joinWith ['\n'] lines ++ ['\n'] := by
        simpa using hfront
      have hbody := append_cancel_right htwice
      apply h.last
      rw [← hsplit, ← hbody, splitOn_append_cons]
      exact getLast?_concat
    · exact notMem_joinWith_feed fun line hline => (h.tight line hline).noReturn
    · rw [hlines]
      exact fun line hline => trimRight_eq_self_iff.mp (h.tight line hline).trimmed
    · intro hlong hhead
      cases hbody : joinWith ['\n'] lines with
      | nil =>
        rw [hbody] at hlong
        exact hlong rfl
      | cons c rest =>
        rw [hbody] at hhead hsplit
        obtain rfl : c = '\n' := Option.some.inj hhead
        apply h.first
        rw [← hsplit]
        rfl
    · rw [hlines]
      exact h.spaced

theorem IsNormal.exists_isDocument (h : IsNormal text) :
    ∃ lines, IsDocument lines ∧ text = joinWith ['\n'] lines ++ ['\n'] := by
  obtain ⟨body, rfl⟩ := h.feed
  obtain ⟨-, honce, hreturn, htight, hfirst, hspaced⟩ := h
  by_cases hbody : body = []
  · subst hbody
    exact ⟨[], ⟨by simp, IsSpaced.nil, by simp, by simp⟩, rfl⟩
  · rw [documentLines_append_feed] at htight hspaced
    have hjoin := joinWith_splitOn '\n' body
    refine ⟨splitOn '\n' body, ⟨?_, hspaced, ?_, ?_⟩, by rw [hjoin]⟩
    · intro line hline
      refine ⟨trimRight_eq_self_iff.mpr (htight line hline), notMem_of_mem_splitOn hline, ?_⟩
      exact fun hmem => hreturn (mem_append_left _ (subset_of_mem_splitOn hline hmem))
    · intro hhead
      obtain ⟨others, hothers⟩ := head?_eq_some_iff.mp hhead
      obtain ⟨rest, hrest, hfeed⟩ := exists_append_of_splitOn hothers
      obtain rfl : body = rest := hrest
      obtain ⟨c, body, rfl⟩ := exists_cons_of_ne_nil hbody
      obtain rfl : c = '\n' := hfeed c rfl
      exact hfirst (by simp) rfl
    · intro hlast
      obtain ⟨front, hfront⟩ := getLast?_eq_some_iff.mp hlast
      rw [hfront] at hjoin
      by_cases hnone : front = []
      · subst hnone
        exact hbody hjoin.symm
      · rw [joinWith_append _ hnone (by simp)] at hjoin
        apply honce
        exact ⟨joinWith ['\n'] front, by simp [← hjoin, joinWith]⟩

theorem isNormal_lint (markdown : Text) : IsNormal (lint markdown) := by
  rw [lint_eq]
  exact (isDocument_lintedLines markdown).isNormal

theorem lint_of_isNormal (h : IsNormal text) : lint text = text := by
  obtain ⟨lines, hlines, rfl⟩ := h.exists_isDocument
  exact lint_of_isDocument hlines

/-- Laying out brings every text into the normal form, and the texts in normal form are exactly
those that it leaves alone. -/
theorem lint_normalForm (text : Text) :
    IsNormal (lint text) ∧ (lint text = text ↔ IsNormal text) ∧ lint (lint text) = lint text := by
  refine ⟨isNormal_lint text, ⟨?_, lint_of_isNormal⟩, lint_of_isNormal (isNormal_lint text)⟩
  intro h
  rw [← h]
  exact isNormal_lint text

end SourceAtlas.Markdown
